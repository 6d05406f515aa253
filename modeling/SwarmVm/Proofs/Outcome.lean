import Mathlib.Init

/-!
# Outcomes of operations

Operations of the heap and of the machine are functions of a state that answer or fail, and the
state they leave counts in both cases. A statement about an operation is therefore a pair of
statements, one about each kind of outcome, and statements about the parts of an operation combine
to one about the whole.
-/

namespace SwarmVm

variable {ε σ α β : Type} {x : EStateM ε σ α} {s : σ} {Q Q' : α → σ → Prop} {E E' : ε → σ → Prop}

/-- The operation `x`, started in the state `s`, answers something of which `Q` holds, or fails with
something of which `E` holds. -/
structure Ends (x : EStateM ε σ α) (s : σ) (Q : α → σ → Prop) (E : ε → σ → Prop) : Prop where
  /-- What is answered. -/
  of_ok : ∀ {a s'}, x s = .ok a s' → Q a s'
  /-- How it fails. -/
  of_error : ∀ {e s'}, x s = .error e s' → E e s'

theorem ends_iff : Ends x s Q E ↔ match x s with
    | .ok a s' => Q a s'
    | .error e s' => E e s' := by
  cases hs : x s with
  | ok a s' => exact ⟨fun h => h.of_ok hs, fun h => ⟨by simp_all, by simp_all⟩⟩
  | error e s' => exact ⟨fun h => h.of_error hs, fun h => ⟨by simp_all, by simp_all⟩⟩

theorem ends_pure {a : α} (hQ : Q a s) : Ends (pure a) s Q E := ends_iff.2 hQ

theorem ends_throw {e : ε} (hE : E e s) : Ends (throw e) s Q E := ends_iff.2 hE

theorem ends_bind {f : α → EStateM ε σ β} {P : β → σ → Prop} (hx : Ends x s Q E)
    (hf : ∀ a s', Q a s' → Ends (f a) s' P E) : Ends (x >>= f) s P E := by
  have hbind : (x >>= f) s = EStateM.bind x f s := rfl
  rw [ends_iff, hbind, EStateM.bind]
  cases hs : x s with
  | ok a s' => exact ends_iff.1 (hf a s' (hx.of_ok hs))
  | error e s' => exact hx.of_error hs

theorem Ends.imp (hx : Ends x s Q E) (hQ : ∀ a s', Q a s' → Q' a s')
    (hE : ∀ e s', E e s' → E' e s') : Ends x s Q' E' :=
  ⟨fun hs => hQ _ _ (hx.of_ok hs), fun hs => hE _ _ (hx.of_error hs)⟩

/-- What is answered is what a run of the operation answers. -/
theorem Ends.and_run (hx : Ends x s Q E) : Ends x s (fun a s' => Q a s' ∧ x s = .ok a s') E :=
  ⟨fun hs => ⟨hx.of_ok hs, hs⟩, hx.of_error⟩

/-- Two statements about one operation. -/
theorem Ends.and (hx : Ends x s Q E) (hx' : Ends x s Q' E') :
    Ends x s (fun a s' => Q a s' ∧ Q' a s') fun e s' => E e s' ∧ E' e s' :=
  ⟨fun hs => ⟨hx.of_ok hs, hx'.of_ok hs⟩, fun hs => ⟨hx.of_error hs, hx'.of_error hs⟩⟩

theorem bind_of_ok {f : α → EStateM ε σ β} {a : α} {s' : σ} (hx : x s = .ok a s') :
    (x >>= f) s = f a s' := by
  have hbind : (x >>= f) s = EStateM.bind x f s := rfl
  rw [hbind, EStateM.bind, hx]

theorem bind_of_error {f : α → EStateM ε σ β} {e : ε} {s' : σ} (hx : x s = .error e s') :
    (x >>= f) s = .error e s' := by
  have hbind : (x >>= f) s = EStateM.bind x f s := rfl
  rw [hbind, EStateM.bind, hx]

theorem exists_of_bind_ok {f : α → EStateM ε σ β} {b : β} {s'' : σ}
    (hx : (x >>= f) s = .ok b s'') : ∃ a s', x s = .ok a s' ∧ f a s' = .ok b s'' := by
  cases hs : x s with
  | ok a s' => exact ⟨a, s', rfl, (bind_of_ok hs).symm.trans hx⟩
  | error e s' =>
    rw [bind_of_error hs] at hx
    cases hx

theorem bind_congr_of_ok {f g : α → EStateM ε σ β} (hf : ∀ a s', x s = .ok a s' → f a s' = g a s') :
    (x >>= f) s = (x >>= g) s := by
  cases hs : x s with
  | ok a s' => rw [bind_of_ok hs, bind_of_ok hs, hf a s' hs]
  | error e s' => rw [bind_of_error hs, bind_of_error hs]

/-- How operations go on depends on their outcomes only. -/
theorem bind_congr_run {y : EStateM ε σ α} {t : σ} (f : α → EStateM ε σ β) (h : x s = y t) :
    (x >>= f) s = (y >>= f) t := by
  cases ht : y t with
  | ok a s' => rw [bind_of_ok ht, bind_of_ok (h.trans ht)]
  | error e s' => rw [bind_of_error ht, bind_of_error (h.trans ht)]

theorem get_bind_apply (f : σ → EStateM ε σ β) (s : σ) : (get >>= f) s = f s s := rfl

theorem ends_get_bind {f : σ → EStateM ε σ β} {P : β → σ → Prop} (hf : Ends (f s) s P E) :
    Ends (get >>= f) s P E :=
  ⟨fun hs => hf.of_ok hs, fun hs => hf.of_error hs⟩

theorem ends_modify {f : σ → σ} {Q : PUnit → σ → Prop} (hQ : Q ⟨⟩ (f s)) :
    Ends (modify f) s Q E :=
  ends_iff.2 hQ

theorem ends_set {s' : σ} {Q : PUnit → σ → Prop} (hQ : Q ⟨⟩ s') : Ends (set s') s Q E :=
  ends_iff.2 hQ

/-- What is known of an operation that has been run. -/
theorem ends_of_ok {a : α} {s' : σ} (hx : x s = .ok a s') :
    Ends x s (fun b s'' => b = a ∧ s'' = s') E := by
  rw [ends_iff, hx]
  exact ⟨rfl, rfl⟩

/-- An operation that cannot fail answers. -/
theorem Ends.exists_ok (hx : Ends x s Q fun _ _ => False) : ∃ a s', x s = .ok a s' ∧ Q a s' := by
  cases hs : x s with
  | ok a s' => exact ⟨a, s', rfl, hx.of_ok hs⟩
  | error e s' => exact (hx.of_error hs).elim

/-! ### Runs -/

/-- The operation answers. -/
def answers (x : EStateM ε σ α) (s : σ) : Bool :=
  match x s with
  | .ok _ _ => true
  | .error _ _ => false

/-- The operation answers something of which `p` holds. -/
def answersWith (x : EStateM ε σ α) (s : σ) (p : α → σ → Bool) : Bool :=
  match x s with
  | .ok a s' => p a s'
  | .error _ _ => false

theorem exists_of_answersWith {p : α → σ → Bool} (hx : answersWith x s p = true) :
    ∃ a s', x s = .ok a s' ∧ p a s' = true := by
  rw [answersWith] at hx
  cases hs : x s with
  | ok a s' =>
    rw [hs] at hx
    exact ⟨a, s', rfl, hx⟩
  | error e s' =>
    rw [hs] at hx
    cases hx

/-- The state that an operation leaves, whether it answers or fails. -/
def stateAfter (x : EStateM ε σ α) (s : σ) : σ :=
  match x s with
  | .ok _ s' => s'
  | .error _ s' => s'

theorem Ends.stateAfter {K : σ → Prop} (hx : Ends x s (fun _ => K) fun _ => K) :
    K (stateAfter x s) := by
  rw [SwarmVm.stateAfter]
  cases hs : x s with
  | ok a s' => exact hx.of_ok hs
  | error e s' => exact hx.of_error hs

theorem ends_of_stateAfter {K : σ → Prop} (hx : K (stateAfter x s)) :
    Ends x s (fun _ => K) fun _ => K := by
  rw [ends_iff]
  rw [stateAfter] at hx
  cases hs : x s with
  | ok a s' => rwa [hs] at hx
  | error e s' => rwa [hs] at hx

/-- What is answered does not matter to it. -/
theorem stateAfter_discard (x : EStateM ε σ α) (s : σ) :
    stateAfter (do let _ ← x) s = stateAfter x s := by
  have hbind : (do let _ ← x : EStateM ε σ Unit) s = EStateM.bind x (fun _ => pure ()) s := rfl
  rw [stateAfter, stateAfter, hbind, EStateM.bind]
  cases x s with
  | ok a s' => rfl
  | error e s' => rfl

theorem eq_ok_of_answers {x : EStateM ε σ Unit} (hx : answers x s = true) :
    x s = .ok () (stateAfter x s) := by
  rw [answers] at hx
  rw [stateAfter]
  cases h : x s with
  | ok a s' => rfl
  | error e s' =>
    rw [h] at hx
    cases hx

theorem exists_error_of_answers (hx : answers x s = false) : ∃ e s', x s = .error e s' := by
  rw [answers] at hx
  cases h : x s with
  | ok a s' =>
    rw [h] at hx
    cases hx
  | error e s' => exact ⟨e, s', rfl⟩

end SwarmVm
