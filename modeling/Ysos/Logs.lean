import Ysos.Runs

/-! # Computations that log what they read

A `Logged` computation has a result and the list of the inputs that it has read; it ends at its first
error.

* `Logged.attempt`: the result of a computation as a value, so that an error does not end what follows.
* `Propagates`: a read that fails is the last one, and its error is the result.
* `propagates_bind_iff`: one computation after the other, if the second cannot end with the error of a
  read without reading. -/

namespace Logs

variable {ι ε α β : Type}

/-- A result, and the inputs that were read. -/
structure Logged (ι ε α : Type) where
  result : Except ε α
  reads : List ι

namespace Logged

/-- A computation that reads nothing. -/
def lift (x : Except ε α) : Logged ι ε α := ⟨x, []⟩

def bind (x : Logged ι ε α) (f : α → Logged ι ε β) : Logged ι ε β :=
  match x.result with
  | .ok a => ⟨(f a).result, x.reads ++ (f a).reads⟩
  | .error e => ⟨.error e, x.reads⟩

instance : Monad (Logged ι ε) where
  pure a := ⟨.ok a, []⟩
  bind := bind

/-- The result as a value. -/
def attempt (x : Logged ι ε α) : Logged ι ε (Except ε α) := ⟨.ok x.result, x.reads⟩

variable {x : Logged ι ε α} {f : α → Logged ι ε β} {a : α} {e : ε}

@[simp]
theorem lift_result (y : Except ε α) : (lift y : Logged ι ε α).result = y := rfl

@[simp]
theorem pure_result (a : α) : (pure a : Logged ι ε α).result = .ok a := rfl

@[simp]
theorem attempt_result : x.attempt.result = .ok x.result := rfl

@[simp]
theorem bind_result : (x >>= f).result = x.result >>= fun a => (f a).result := by
  show (x.bind f).result = _
  unfold bind
  cases x.result <;> rfl

theorem bind_ok (h : x.result = .ok a) : x >>= f = ⟨(f a).result, x.reads ++ (f a).reads⟩ := by
  show x.bind f = _
  rw [bind, h]

theorem bind_error (h : x.result = .error e) : x >>= f = ⟨.error e, x.reads⟩ := by
  show x.bind f = _
  rw [bind, h]

theorem reads_bind_ne_nil (h : x.reads ≠ []) : (x >>= f).reads ≠ [] := by
  cases hres : x.result with
  | error e =>
      rw [bind_error hres]
      exact h
  | ok a =>
      rw [bind_ok hres]
      exact List.append_ne_nil_of_left_ne_nil h _

end Logged

/-! ### Failing reads -/

section Rules
variable {fails : ι → ε → Prop} {x : Logged ι ε α} {f : α → Logged ι ε β}

/-- Nothing is read after a read that fails, and its error is the result. -/
def Propagates (fails : ι → ε → Prop) (x : Logged ι ε α) : Prop :=
  ∀ before i after e, x.reads = before ++ i :: after → fails i e → after = [] ∧ x.result = .error e

/-- A computation that reads nothing does not end with the error of a read. -/
def Quiet (fails : ι → ε → Prop) (x : Logged ι ε α) : Prop :=
  x.reads = [] → ∀ i e, fails i e → x.result ≠ .error e

theorem propagates_of_reads_nil (h : x.reads = []) : Propagates fails x := by
  intro before i after e he
  rw [h] at he
  exact absurd he.symm (by simp)

theorem propagates_lift (y : Except ε α) : Propagates fails (Logged.lift y) :=
  propagates_of_reads_nil rfl

theorem propagates_pure (a : α) : Propagates fails (pure a) := propagates_of_reads_nil rfl

theorem propagates_single {i : ι} (h : x.reads = [i]) :
    Propagates fails x ↔ ∀ e, fails i e → x.result = .error e := by
  constructor
  · exact fun hx e he => (hx [] i [] e h he).2
  · intro hx before j after e hsplit he
    rw [h] at hsplit
    obtain ⟨-, rfl, rfl⟩ : before = [] ∧ i = j ∧ after = [] := by
      cases before with
      | nil =>
          obtain ⟨rfl, rfl⟩ := List.cons.inj hsplit
          exact ⟨rfl, rfl, rfl⟩
      | cons b before => exact absurd (List.cons.inj hsplit).2 (by simp)
    exact ⟨rfl, hx e he⟩

theorem Propagates.no_failure (h : Propagates fails x) {a : α} (ha : x.result = .ok a) {i : ι} {e : ε}
    (hi : i ∈ x.reads) : ¬ fails i e := by
  intro he
  obtain ⟨before, after, hsplit⟩ := List.append_of_mem hi
  cases ha.symm.trans (h before i after e hsplit he).2

theorem Propagates.bind (hx : Propagates fails x)
    (hf : ∀ a, x.result = .ok a → Propagates fails (f a)) : Propagates fails (x >>= f) := by
  cases hres : x.result with
  | error e =>
      rw [Logged.bind_error hres]
      intro before i after e' hsplit he
      obtain ⟨hafter, he'⟩ := hx before i after e' hsplit he
      exact ⟨hafter, by rw [← Except.error.inj (hres.symm.trans he')]⟩
  | ok a =>
      rw [Logged.bind_ok hres]
      intro before i after e hsplit he
      rcases List.append_eq_append_iff.mp hsplit with ⟨before', -, hrest⟩ | ⟨rest, hreads, hrest⟩
      · exact hf a hres before' i after e hrest he
      · cases rest with
        | nil => exact hf a hres [] i after e hrest.symm he
        | cons j rest =>
            obtain ⟨rfl, -⟩ := List.cons.inj hrest
            exact absurd he (hx.no_failure hres (by rw [hreads]; simp))

theorem Propagates.of_bind (h : Propagates fails (x >>= f)) {a : α} (ha : x.result = .ok a) :
    Propagates fails (f a) := by
  rw [Logged.bind_ok ha] at h
  intro before i after e hsplit he
  exact h (x.reads ++ before) i after e (by rw [hsplit, List.append_assoc]) he

theorem Propagates.append_iff (hx : Propagates fails x) {a : α} (ha : x.result = .ok a)
    (y : Logged ι ε β) : Propagates fails ⟨y.result, x.reads ++ y.reads⟩ ↔ Propagates fails y := by
  rw [← Logged.bind_ok (f := fun _ => y) ha]
  exact ⟨fun h => h.of_bind ha, fun hy => hx.bind fun _ _ => hy⟩

theorem Propagates.bind_left (h : Propagates fails (x >>= f))
    (hquiet : ∀ a, x.result = .ok a → Quiet fails (f a)) : Propagates fails x := by
  intro before i after e hsplit he
  cases hres : x.result with
  | error e' =>
      rw [Logged.bind_error hres] at h
      obtain ⟨hafter, he'⟩ := h before i after e hsplit he
      exact ⟨hafter, congrArg _ (Except.error.inj he')⟩
  | ok a =>
      rw [Logged.bind_ok hres] at h
      obtain ⟨hafter, hresult⟩ := h before i (after ++ (f a).reads) e
        (by rw [hsplit, List.append_assoc]; rfl) he
      exact absurd hresult (hquiet a hres (List.append_eq_nil_iff.mp hafter).2 i e he)

theorem propagates_bind_iff (hquiet : ∀ a, x.result = .ok a → Quiet fails (f a)) :
    Propagates fails (x >>= f) ↔
      Propagates fails x ∧ ∀ a, x.result = .ok a → Propagates fails (f a) :=
  ⟨fun h => ⟨h.bind_left hquiet, fun _ ha => h.of_bind ha⟩, fun h => h.1.bind h.2⟩

theorem quiet_pure (a : α) : Quiet fails (pure a) := fun _ _ _ _ => nofun

theorem quiet_lift {y : Except ε α} (h : ∀ i e, fails i e → y ≠ .error e) :
    Quiet fails (Logged.lift y : Logged ι ε α) := fun _ => h

theorem quiet_of_reads (h : x.reads ≠ []) : Quiet fails x := fun h0 => absurd h0 h

theorem Quiet.append {y : Logged ι ε β} (h : Quiet fails y) (before : List ι) :
    Quiet fails ⟨y.result, before ++ y.reads⟩ :=
  fun hreads => h (List.append_eq_nil_iff.mp hreads).2

theorem Quiet.bind (hx : Quiet fails x) (hf : ∀ a, x.result = .ok a → Quiet fails (f a)) :
    Quiet fails (x >>= f) := by
  cases hres : x.result with
  | error e =>
      rw [Logged.bind_error hres]
      intro hreads i e' he hresult
      exact hx hreads i e' he (hres.trans (congrArg _ (Except.error.inj hresult)))
  | ok a =>
      rw [Logged.bind_ok hres]
      exact fun hreads => hf a hres (List.append_eq_nil_iff.mp hreads).2

end Rules
end Logs
