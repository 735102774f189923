namespace Program

-- Deterministic programs over a state: they return a value or stop, and the
-- state they leave behind is kept in both cases (a device outlives a program
-- that exits).
def Prog (σ ε α : Type) : Type := σ → Except ε α × σ

variable {σ ε α β : Type}

instance : Monad (Prog σ ε) where
  pure a := fun s => (.ok a,s)
  bind p f := fun s => match p s with
    | (.ok a,t) => f a t
    | (.error e,t) => (.error e,t)

def get : Prog σ ε σ := fun s => (.ok s,s)
def modify (f : σ → σ) : Prog σ ε Unit := fun s => (.ok (),f s)
def stop (e : ε) : Prog σ ε α := fun s => (.error e,s)
def ensure (c : Prop) [Decidable c] (e : ε) : Prog σ ε Unit := if c then pure () else stop e

-- `p` started in `s` either returns into `Q` or stops into `E`.
def Runs (p : Prog σ ε α) (s : σ) (Q : α → σ → Prop) (E : ε → σ → Prop) : Prop :=
  match p s with
  | (.ok a,t) => Q a t
  | (.error e,t) => E e t

-- Total correctness: the program returns, and into `Q`.
abbrev Returns (p : Prog σ ε α) (s : σ) (Q : α → σ → Prop) : Prop := Runs p s Q (fun _ _ => False)

@[simp] theorem runs_pure {Q : α → σ → Prop} {E : ε → σ → Prop} :
    Runs (pure a : Prog σ ε α) s Q E ↔ Q a s := Iff.rfl

@[simp] theorem runs_bind {p : Prog σ ε α} {f : α → Prog σ ε β} {Q : β → σ → Prop} {E : ε → σ → Prop} :
    Runs (p >>= f) s Q E ↔ Runs p s (fun a t => Runs (f a) t Q E) E := by
  simp only [Runs,bind]
  rcases p s with ⟨_ | _,t⟩ <;> rfl

@[simp] theorem runs_get {Q : σ → σ → Prop} {E : ε → σ → Prop} :
    Runs (get : Prog σ ε σ) s Q E ↔ Q s s := Iff.rfl

@[simp] theorem runs_modify {Q : Unit → σ → Prop} {E : ε → σ → Prop} :
    Runs (modify f : Prog σ ε Unit) s Q E ↔ Q () (f s) := Iff.rfl

@[simp] theorem runs_stop {Q : α → σ → Prop} {E : ε → σ → Prop} :
    Runs (stop e : Prog σ ε α) s Q E ↔ E e s := Iff.rfl

@[simp] theorem runs_ensure {c : Prop} [Decidable c] {Q : Unit → σ → Prop} {E : ε → σ → Prop} :
    Runs (ensure c e : Prog σ ε Unit) s Q E ↔ if c then Q () s else E e s := by
  unfold ensure
  split <;> rfl

theorem runs_ite {c : Prop} [Decidable c] {p q : Prog σ ε α} {Q : α → σ → Prop} {E : ε → σ → Prop} :
    Runs (if c then p else q) s Q E ↔ if c then Runs p s Q E else Runs q s Q E := by
  split <;> rfl

theorem Runs.mono {p : Prog σ ε α} {Q R : α → σ → Prop} {E F : ε → σ → Prop} (ran : Runs p s Q E)
    (returned : ∀ a t, Q a t → R a t) (stopped : ∀ e t, E e t → F e t) : Runs p s R F := by
  unfold Runs at ran ⊢
  split
  · rename_i equal; rw [equal] at ran; exact returned _ _ ran
  · rename_i equal; rw [equal] at ran; exact stopped _ _ ran

-- Two facts about one outcome.
theorem Runs.and {p : Prog σ ε α} {Q R : α → σ → Prop} {E : ε → σ → Prop} (one : Runs p s Q E) (two : Runs p s R E) :
    Runs p s (fun a t => Q a t ∧ R a t) E := by
  unfold Runs at one two ⊢
  split
  · rename_i equal
    rw [equal] at one two
    exact ⟨one,two⟩
  · rename_i equal
    rw [equal] at one
    exact one

-- The consequence rule for a callee that is known to return.
theorem Runs.of_returns {p : Prog σ ε α} {Q R : α → σ → Prop} {E : ε → σ → Prop} (ran : Returns p s Q)
    (returned : ∀ a t, Q a t → R a t) : Runs p s R E :=
  ran.mono returned (fun _ _ => False.elim)

theorem returns_iff {p : Prog σ ε α} {Q : α → σ → Prop} :
    Returns p s Q ↔ ∃ a t, p s = (.ok a,t) ∧ Q a t := by
  unfold Returns Runs
  constructor
  · intro ran
    split at ran
    · rename_i a t equal; exact ⟨a,t,equal,ran⟩
    · exact ran.elim
  · intro post
    obtain ⟨a,t,equal,post⟩ := post
    rw [equal]
    exact post

theorem Runs.of_eq {p : Prog σ ε α} {Q : α → σ → Prop} {E : ε → σ → Prop} (equal : p s = (.ok a,t))
    (post : Q a t) : Runs p s Q E := by
  unfold Runs; rw [equal]; exact post

theorem runs_eq {p : Prog σ ε α} {Q : α → σ → Prop} {E : ε → σ → Prop} (equal : p s = (.ok a,t)) :
    Runs p s Q E ↔ Q a t := by
  unfold Runs; rw [equal]

theorem runs_error {p : Prog σ ε α} {Q : α → σ → Prop} {E : ε → σ → Prop} (equal : p s = (.error e,t)) :
    Runs p s Q E ↔ E e t := by
  unfold Runs; rw [equal]

theorem Runs.result {p : Prog σ ε α} {Q : α → σ → Prop} {E : ε → σ → Prop} (ran : Runs p s Q E)
    (equal : p s = (.ok a,t)) : Q a t := by
  unfold Runs at ran; rw [equal] at ran; exact ran

-- What holds both where a program returns and where it stops.
theorem Runs.outcome {p : Prog σ ε α} {R : σ → Prop} (ran : Runs p s (fun _ t => R t) (fun _ t => R t)) : R (p s).2 := by
  unfold Runs at ran
  split at ran
  · rename_i equal; rw [equal]; exact ran
  · rename_i equal; rw [equal]; exact ran

-- A program that is known exactly: its outcome is the only one.
theorem Runs.exact {p : Prog σ ε α} {a' : α} {t' : σ} (spec : ∀ Q : α → σ → Prop, Returns p s Q ↔ Q a' t')
    (equal : p s = (.ok a,t)) : a = a' ∧ t = t' :=
  ((spec fun b u => b = a' ∧ u = t').mpr ⟨rfl,rfl⟩).result equal

theorem Runs.equal {p : Prog σ ε α} {a : α} {t : σ} (spec : ∀ Q : α → σ → Prop, Returns p s Q ↔ Q a t) :
    p s = (.ok a,t) := by
  obtain ⟨b,u,equal,rfl,rfl⟩ := returns_iff.mp ((spec fun b u => b = a ∧ u = t).mpr ⟨rfl,rfl⟩)
  exact equal

theorem Runs.stops {p : Prog σ ε α} {e : ε} {t : σ}
    (spec : ∀ E : ε → σ → Prop, Runs p s (fun _ _ => False) E ↔ E e t) : p s = (.error e,t) := by
  have ran := (spec fun f u => f = e ∧ u = t).mpr ⟨rfl,rfl⟩
  unfold Runs at ran
  split at ran
  · exact ran.elim
  · rename_i equal
    obtain ⟨rfl,rfl⟩ := ran
    exact equal

theorem Runs.congr {p : Prog σ ε α} {Q R : α → σ → Prop} {E : ε → σ → Prop} (same : ∀ a t, Q a t ↔ R a t) :
    Runs p s Q E ↔ Runs p s R E :=
  ⟨fun ran => ran.mono (fun a t => (same a t).mp) (fun _ _ => id),fun ran => ran.mono (fun a t => (same a t).mpr) (fun _ _ => id)⟩

-- Partial correctness of what holds everywhere.
theorem Runs.always {p : Prog σ ε α} {Q : α → σ → Prop} (all : ∀ a t, Q a t) : Runs p s Q (fun _ _ => True) := by
  unfold Runs
  split
  · exact all _ _
  · trivial

-- The rest of a program after a first part whose outcome is known.
theorem bind_ok {p : Prog σ ε α} {f : α → Prog σ ε β} (ran : p s = (.ok a,t)) : (p >>= f) s = f a t := by
  simp only [bind,ran]

theorem bind_error {p : Prog σ ε α} {f : α → Prog σ ε β} (ran : p s = (.error e,t)) : (p >>= f) s = (.error e,t) := by
  simp only [bind,ran]

-- What returned had a first part that returned.
theorem bind_returned {p : Prog σ ε α} {f : α → Prog σ ε β} (ran : (p >>= f) s = (.ok b,u)) :
    ∃ a t, p s = (.ok a,t) ∧ f a t = (.ok b,u) := by
  simp only [bind] at ran
  split at ran
  · rename_i a t first
    exact ⟨a,t,first,ran⟩
  · cases ran

theorem seq_assoc {γ : Type} (p : Prog σ ε α) (f : α → Prog σ ε β) (g : β → Prog σ ε γ) :
    (p >>= f) >>= g = p >>= fun a => f a >>= g := by
  funext s
  simp only [bind]
  rcases p s with ⟨_ | _,_⟩
  · rfl
  · rfl

theorem ite_seq {c : Prop} [Decidable c] (p q : Prog σ ε α) (f : α → Prog σ ε β) :
    (if c then p else q) >>= f = if c then p >>= f else q >>= f := by
  split
  · rfl
  · rfl

-- What is known of a result excludes every postcondition that it contradicts.
theorem Runs.excludes {p : Prog σ ε α} {Q R : α → σ → Prop} (ran : Runs p s Q (fun _ _ => True))
    (apart : ∀ a t, Q a t → ¬ R a t) : ¬ Returns p s R := by
  intro returned
  obtain ⟨a,t,equal,post⟩ := returns_iff.mp returned
  exact apart a t (ran.result equal) post

-- A relation, graded by a cost, that every outcome of a program, returned or
-- stopped, has to its start.
structure Graded (R : Nat → σ → σ → Prop) : Prop where
  refl : ∀ s, R 0 s s
  trans : ∀ {a b r s t}, R a r s → R b s t → R (a+b) r t
  mono : ∀ {a b s t}, a ≤ b → R a s t → R b s t

def Spends (R : Nat → σ → σ → Prop) (k : Nat) (p : Prog σ ε α) : Prop := ∀ s, R k s (p s).2

section graded
variable {R : Nat → σ → σ → Prop} (graded : Graded R)
include graded

theorem Graded.pure (a : α) : Spends R 0 (pure a : Prog σ ε α) := fun s => graded.refl s

theorem Graded.get : Spends R 0 (get : Prog σ ε σ) := fun s => graded.refl s

theorem Graded.ensure (c : Prop) [Decidable c] (e : ε) : Spends R 0 (ensure c e) := by
  intro s
  unfold Program.ensure
  split <;> exact graded.refl s

theorem Graded.bind {p : Prog σ ε α} {f : α → Prog σ ε β} (first : Spends R a p) (next : ∀ x, Spends R b (f x)) :
    Spends R (a+b) (p >>= f) := by
  intro s
  have one := first s
  simp only [Bind.bind]
  cases ran : p s with
  | mk result t =>
      rw [ran] at one
      cases result with
      | ok x => exact graded.trans one (next x t)
      | error e => exact graded.mono (Nat.le_add_right a b) one

theorem Graded.weaken {p : Prog σ ε α} (spends : Spends R a p) (le : a ≤ b) : Spends R b p :=
  fun s => graded.mono le (spends s)

omit graded

theorem spends_ite {c : Prop} [Decidable c] {p q : Prog σ ε α} (left : Spends R k p) (right : Spends R k q) :
    Spends R k (if c then p else q) := by
  split
  · exact left
  · exact right

theorem Spends.result {p : Prog σ ε α} {a : α} (spends : Spends R k p) (equal : p s = (.ok a,t)) : R k s t := by
  have step := spends s
  rwa [equal] at step

theorem Spends.runs {p : Prog σ ε α} (spends : Spends R k p) (s : σ) :
    Runs p s (fun _ t => R k s t) (fun _ t => R k s t) := by
  have step := spends s
  unfold Runs
  split
  · rename_i equal; rw [equal] at step; exact step
  · rename_i equal; rw [equal] at step; exact step

end graded

-- A program with one outcome on a whole class of states, which it does not
-- leave; `Q` holds of what it returns.
def Steady (C : σ → Prop) (p : Prog σ ε α) (Q : α → Prop) : Prop :=
  ∃ r : Except ε α, (∀ s, C s → (p s).1 = r ∧ C (p s).2) ∧ ∀ a, r = .ok a → Q a

section steady
variable {C : σ → Prop} {p : Prog σ ε α} {Q R : α → Prop}

theorem steady_pure (a : α) (post : Q a) : Steady C (pure a : Prog σ ε α) Q :=
  ⟨.ok a,fun _ here => ⟨rfl,here⟩,fun _ equal => by cases equal; exact post⟩

theorem steady_stop (e : ε) : Steady C (stop e : Prog σ ε α) Q :=
  ⟨.error e,fun _ here => ⟨rfl,here⟩,fun _ equal => by cases equal⟩

theorem steady_bind {f : α → Prog σ ε β} {R : β → Prop} (first : Steady C p Q) (next : ∀ a, Q a → Steady C (f a) R) :
    Steady C (p >>= f) R := by
  obtain ⟨result,same,post⟩ := first
  cases result with
  | error e =>
      refine ⟨.error e,fun s here => ?_,fun _ equal => by cases equal⟩
      obtain ⟨equal,stays⟩ := same s here
      simp only [bind]
      rcases ran : p s with ⟨_ | _,t⟩
      · rw [ran] at equal stays
        cases equal
        exact ⟨rfl,stays⟩
      · rw [ran] at equal
        cases equal
  | ok a =>
      obtain ⟨result',same',post'⟩ := next a (post a rfl)
      refine ⟨result',fun s here => ?_,post'⟩
      obtain ⟨equal,stays⟩ := same s here
      simp only [bind]
      rcases ran : p s with ⟨_ | _,t⟩
      · rw [ran] at equal
        cases equal
      · rw [ran] at equal stays
        cases equal
        exact same' t stays

theorem steady_ensure (c : Prop) [Decidable c] (e : ε) : Steady C (ensure c e) (fun _ => c) := by
  unfold ensure
  split
  · rename_i holds
    exact steady_pure () holds
  · exact steady_stop e

-- Reading the state, where every state of the class gives the same.
theorem steady_get {f : σ → Prog σ ε α} (o : σ) (same : ∀ s, C s → f s = f o) (next : Steady C (f o) Q) :
    Steady C (get >>= f) Q := by
  obtain ⟨result,one,post⟩ := next
  refine ⟨result,fun s here => ?_,post⟩
  have step := one s here
  rw [← same s here] at step
  exact step

theorem steady_modify {f : σ → σ} (step : ∀ s, C s → C (f s)) : Steady C (modify f : Prog σ ε Unit) (fun _ => True) :=
  ⟨.ok (),fun s here => ⟨rfl,step s here⟩,fun _ _ => trivial⟩

theorem Steady.mono (steady : Steady C p Q) (weaker : ∀ a, Q a → R a) : Steady C p R := by
  obtain ⟨result,same,post⟩ := steady
  exact ⟨result,same,fun a equal => weaker a (post a equal)⟩

-- What a run from one state of the class returns, runs from all of them do.
theorem Steady.self (steady : Steady C p Q) (here : C o) : Steady C p (fun a => Q a ∧ (p o).1 = .ok a) := by
  obtain ⟨result,same,post⟩ := steady
  exact ⟨result,same,fun a equal => ⟨post a equal,(same o here).1.trans equal⟩⟩

theorem Steady.agree (steady : Steady C p Q) (here : C s) (there : C t) : (p s).1 = (p t).1 := by
  obtain ⟨result,same,_⟩ := steady
  exact (same s here).1.trans (same t there).1.symm

theorem Steady.stays (steady : Steady C p Q) (here : C s) : C (p s).2 := by
  obtain ⟨_,same,_⟩ := steady
  exact (same s here).2

theorem Steady.runs (steady : Steady C p Q) (here : C s) : Runs p s (fun a t => Q a ∧ (p s).1 = .ok a ∧ C t) (fun _ t => C t) := by
  obtain ⟨result,same,post⟩ := steady
  obtain ⟨equal,stays⟩ := same s here
  unfold Runs
  rcases ran : p s with ⟨_ | a,t⟩
  · rw [ran] at stays
    exact stays
  · rw [ran] at equal stays
    exact ⟨post a equal.symm,rfl,stays⟩

theorem Steady.post (steady : Steady C p Q) (here : C s) : Runs p s (fun a t => Q a ∧ C t) (fun _ _ => True) :=
  (steady.runs here).mono (fun _ _ both => ⟨both.1,both.2.2⟩) (fun _ _ _ => trivial)

end steady

end Program
