import Ysos.Runs

/-! # File descriptors

`ResourceSet` keeps the open resources of a family of processes under descriptors of type `u8`.
`open` takes the descriptor closed last; if there is none it takes the number of open
descriptors, cast to `u8`.

* `ResourceSet.Packed`: the open and the recycled descriptors are the first `m` numbers, each
  once.  Every run from `ResourceSet::default` keeps this.
* `descriptors_apart`: a call of `open` gives a new descriptor exactly when fewer than `256` are
  open, and if all calls do, no open descriptor ever changes its resource.
* `open_replaces_stdin`: the 254th `open` after `default` returns the descriptor of the open
  standard input.
* `descriptors_dense`: descriptors are below the largest number open at once, `close` changes one
  descriptor at most, and `open` takes a new descriptor only if none waits to be reused. -/

namespace Ysos

open Runs

inductive StdIO where
  | stdin
  | stdout
  | stderr
deriving DecidableEq, Repr

/-- A resource; the handle of a file is any type. -/
inductive Resource (F : Type) where
  | console (stdio : StdIO)
  | file (handle : F)
  | null
deriving DecidableEq, Repr

/-- `recycled` has the descriptor that was closed last first. -/
structure ResourceSet (F : Type) where
  handles : AList (fun _ : UInt8 => Resource F)
  recycled : List UInt8

namespace ResourceSet

variable {F : Type}

/-- `ResourceSet::open`. -/
def «open» (s : ResourceSet F) (res : Resource F) : UInt8 × ResourceSet F :=
  match s.recycled with
  | fd :: rest => (fd, { handles := s.handles.insert fd res, recycled := rest })
  | [] =>
      let fd := UInt8.ofNat s.handles.keys.length
      (fd, { s with handles := s.handles.insert fd res })

/-- `ResourceSet::close`. -/
def close (s : ResourceSet F) (fd : UInt8) : Bool × ResourceSet F :=
  if fd ∈ s.handles then
    (true, { handles := s.handles.erase fd, recycled := fd :: s.recycled })
  else (false, s)

/-- `ResourceSet::default`. -/
def default : ResourceSet F :=
  let res : ResourceSet F := { handles := ∅, recycled := [] }
  let res := (res.open (.console .stdin)).2
  let res := (res.open (.console .stdout)).2
  (res.open (.console .stderr)).2

end ResourceSet

/-- The calls on a set of resources. -/
inductive ResourceCall (F : Type) where
  | open (res : Resource F)
  | close (fd : UInt8)
deriving DecidableEq

/-- What a call returns: the new descriptor of `open`, the success of `close`. -/
abbrev ResourceAnswer := UInt8 ⊕ Bool

namespace ResourceSet

variable {F : Type}

def step (s : ResourceSet F) : ResourceCall F → Except Empty (ResourceSet F × ResourceAnswer)
  | .open res => .ok ((s.open res).2, .inl (s.open res).1)
  | .close fd => .ok ((s.close fd).2, .inr (s.close fd).1)

/-! ### The descriptors in use -/

/-- The open and the recycled descriptors are the first `m` numbers, each once. -/
def Packed (s : ResourceSet F) : Prop :=
  ∃ m ≤ 256, (s.handles.keys ++ s.recycled).Perm ((List.range m).map UInt8.ofNat)

theorem nodup_firsts {m : ℕ} (hm : m ≤ 256) : ((List.range m).map UInt8.ofNat).Nodup := by
  apply List.Nodup.map_on _ List.nodup_range
  intro a ha b hb hab
  have ha := List.mem_range.mp ha
  have hb := List.mem_range.mp hb
  have h := congrArg UInt8.toNat hab
  simp only [UInt8.toNat_ofNat'] at h
  omega

theorem ofNat_mem_firsts {n m : ℕ} (hn : n < 256) (hm : m ≤ 256) :
    UInt8.ofNat n ∈ (List.range m).map UInt8.ofNat ↔ n < m := by
  rw [List.mem_map]
  constructor
  · rintro ⟨a, ha, h⟩
    have ha := List.mem_range.mp ha
    have h := congrArg UInt8.toNat h
    simp only [UInt8.toNat_ofNat'] at h
    omega
  · exact fun h => ⟨n, List.mem_range.mpr h, rfl⟩

theorem packed_default : (default : ResourceSet F).Packed := by
  refine ⟨3, by decide, ?_⟩
  change ([2, 1, 0] : List UInt8).Perm _
  decide

theorem recycled_default : (default : ResourceSet F).recycled = [] := rfl

variable {s t : ResourceSet F}

theorem Packed.recycled_notMem (h : s.Packed) {fd : UInt8} (hfd : fd ∈ s.recycled) :
    fd ∉ s.handles := by
  obtain ⟨m, hm, hp⟩ := h
  have hnd := hp.nodup_iff.mpr (nodup_firsts hm)
  rw [AList.mem_keys]
  exact fun hmem => (List.nodup_append.mp hnd).2.2 fd hmem fd hfd rfl

theorem Packed.length_le (h : s.Packed) : s.handles.keys.length + s.recycled.length ≤ 256 := by
  obtain ⟨m, hm, hp⟩ := h
  have hlen := hp.length_eq
  rw [List.length_append, List.length_map, List.length_range] at hlen
  omega

/-- `open` gives a descriptor that is not open exactly when fewer than `256` are. -/
theorem Packed.open_fresh (h : s.Packed) (res : Resource F) :
    (s.open res).1 ∉ s.handles ↔ s.handles.keys.length < 256 := by
  have hle := h.length_le
  unfold «open»
  split
  · rename_i fd rest hr
    have hnot := h.recycled_notMem (hr ▸ List.mem_cons_self : fd ∈ s.recycled)
    rw [hr, List.length_cons] at hle
    exact ⟨fun _ => by omega, fun _ => hnot⟩
  · rename_i hr
    obtain ⟨m, hm, hp⟩ := h
    rw [hr, List.append_nil] at hp
    have hlen := hp.length_eq
    rw [List.length_map, List.length_range] at hlen
    rw [AList.mem_keys, hp.mem_iff, hlen]
    rcases Nat.lt_or_ge m 256 with hlt | hge
    · rw [ofNat_mem_firsts hlt hm]
      omega
    · have h256 : m = 256 := by omega
      subst h256
      simp only [Nat.lt_irrefl, iff_false, not_not]
      exact List.mem_map.mpr ⟨0, List.mem_range.mpr (by decide), by decide⟩

/-- `open` moves a descriptor from the recycled to the open ones, replaces an open one when all are open,
or opens one that was not in use. -/
theorem Packed.open_perm (h : s.Packed) (res : Resource F) :
    ((s.open res).2.handles.keys ++ (s.open res).2.recycled).Perm (s.handles.keys ++ s.recycled) ∨
      s.recycled = [] ∧ (s.open res).2.recycled = [] ∧ s.handles.keys.length < 256 ∧
        (s.open res).2.handles.keys = UInt8.ofNat s.handles.keys.length :: s.handles.keys := by
  have hfresh := h.open_fresh res
  revert hfresh
  unfold «open»
  split
  · rename_i fd rest hr
    intro _
    have hnot : fd ∉ s.handles.keys := h.recycled_notMem (hr ▸ List.mem_cons_self)
    rw [AList.keys_insert, List.erase_of_not_mem hnot, hr, List.cons_append]
    exact Or.inl List.perm_middle.symm
  · rename_i hr
    intro hfresh
    rcases Nat.lt_or_ge s.handles.keys.length 256 with hlt | hge
    · have hnot : UInt8.ofNat s.handles.keys.length ∉ s.handles.keys := hfresh.mpr hlt
      rw [AList.keys_insert, List.erase_of_not_mem hnot]
      exact Or.inr ⟨hr, hr, hlt, rfl⟩
    · have hmem : UInt8.ofNat s.handles.keys.length ∈ s.handles.keys := by
        by_contra hnot
        exact absurd (hfresh.mp hnot) hge.not_gt
      rw [AList.keys_insert]
      exact Or.inl ((List.perm_cons_erase hmem).symm.append_right s.recycled)

theorem close_perm (s : ResourceSet F) (fd : UInt8) :
    ((s.close fd).2.handles.keys ++ (s.close fd).2.recycled).Perm (s.handles.keys ++ s.recycled) := by
  unfold ResourceSet.close
  split_ifs with hmem
  · rw [AList.keys_erase]
    exact List.perm_middle.trans ((List.perm_cons_erase hmem).symm.append_right s.recycled)
  · exact List.Perm.refl _

theorem Packed.open (h : s.Packed) (res : Resource F) : (s.open res).2.Packed := by
  have hperm := h.open_perm res
  obtain ⟨m, hm, hp⟩ := h
  rcases hperm with hmoved | ⟨hr, hr', hlt, hkeys⟩
  · exact ⟨m, hm, hmoved.trans hp⟩
  · rw [hr, List.append_nil] at hp
    have hlen := hp.length_eq
    rw [List.length_map, List.length_range] at hlen
    refine ⟨m + 1, hlen ▸ hlt, ?_⟩
    rw [hkeys, hr', List.append_nil, List.range_succ, List.map_append, hlen]
    exact ((List.perm_append_singleton _ _).trans (hp.symm.cons _)).symm

theorem Packed.close (h : s.Packed) (fd : UInt8) : (s.close fd).2.Packed := by
  obtain ⟨m, hm, hp⟩ := h
  exact ⟨m, hm, (s.close_perm fd).trans hp⟩

theorem Packed.step (h : s.Packed) {c : ResourceCall F} {o : ResourceAnswer}
    (hst : s.step c = .ok (t, o)) : t.Packed := by
  rcases c with res | fd
  · cases hst
    exact h.open res
  · cases hst
    exact h.close fd

theorem packed_of_run {C} (h : Run step C (default : ResourceSet F) s) : s.Packed :=
  h.invariant packed_default fun _ _ _ _ hs hst _ => hs.step hst

/-! ### What a descriptor refers to -/

theorem lookup_open (s : ResourceSet F) (res : Resource F) :
    (s.open res).2.handles.lookup (s.open res).1 = some res := by
  unfold «open»
  split <;> exact AList.lookup_insert _

theorem lookup_open_ne {fd : UInt8} {res : Resource F} (h : fd ≠ (s.open res).1) :
    (s.open res).2.handles.lookup fd = s.handles.lookup fd := by
  revert h
  unfold «open»
  split <;> exact AList.lookup_insert_ne

theorem lookup_close_ne {fd fd' : UInt8} (h : fd ≠ fd') :
    (s.close fd').2.handles.lookup fd = s.handles.lookup fd := by
  unfold close
  split_ifs
  · exact AList.lookup_erase_ne h
  · rfl

theorem open_mem (s : ResourceSet F) (res : Resource F) : (s.open res).1 ∈ (s.open res).2.handles := by
  rw [← AList.lookup_isSome, lookup_open]
  rfl

theorem open_fst_mem (h : s.recycled ≠ []) (res : Resource F) : (s.open res).1 ∈ s.recycled := by
  obtain ⟨fd, rest, hr⟩ := List.exists_cons_of_ne_nil h
  simp [«open», hr]

theorem close_fst (s : ResourceSet F) (fd : UInt8) : (s.close fd).1 = true ↔ fd ∈ s.handles := by
  unfold close
  split_ifs with h <;> simp [h]

theorem close_close (s : ResourceSet F) (fd : UInt8) :
    (s.close fd).2.close fd = (false, (s.close fd).2) := by
  have hclosed : fd ∉ (s.close fd).2.handles := by
    unfold close
    split_ifs with h
    · simp [AList.mem_erase]
    · exact h
  exact if_neg hclosed

/-- The call does not open a resource while all descriptors are open. -/
def HasRoom (s : ResourceSet F) (c : ResourceCall F) : Prop :=
  ∀ res, c = .open res → s.handles.keys.length < 256

/-- A call with room that does not close a descriptor leaves it what it was. -/
theorem Packed.lookup_step (h : s.Packed) {c : ResourceCall F} {o : ResourceAnswer} {fd : UInt8}
    {res : Resource F} (hfd : s.handles.lookup fd = some res) (hroom : s.HasRoom c)
    (hc : c ≠ .close fd) (hst : s.step c = .ok (t, o)) : t.handles.lookup fd = some res := by
  rcases c with res' | fd'
  · cases hst
    have hnew := (h.open_fresh res').mpr (hroom res' rfl)
    have hmem : fd ∈ s.handles := AList.lookup_isSome.mp (by rw [hfd]; rfl)
    have hne : fd ≠ (s.open res').1 := fun e => hnew (e ▸ hmem)
    rw [lookup_open_ne hne, hfd]
  · cases hst
    have hne : fd ≠ fd' := fun e => hc (e ▸ rfl)
    rw [lookup_close_ne hne, hfd]

theorem open_fst (hr : s.recycled = []) (res : Resource F) :
    (s.open res).1 = UInt8.ofNat s.handles.keys.length := by
  unfold «open»
  rw [hr]

/-- With room for `n` more descriptors and none recycled, `n` calls of `open` use new ones. -/
theorem exec_opens (res : Resource F) : ∀ {n : ℕ} {s : ResourceSet F}, s.Packed →
    s.recycled = [] → s.handles.keys.length + n ≤ 256 →
    ∃ t, exec step Any s (List.replicate n (.open res)) = some t ∧ t.recycled = [] ∧
      t.handles.keys.length = s.handles.keys.length + n ∧
      ∀ fd r, s.handles.lookup fd = some r → t.handles.lookup fd = some r
  | 0, s, _, hr, _ => ⟨s, rfl, hr, rfl, fun _ _ h => h⟩
  | n + 1, s, hs, hr, hn => by
      have hnew := (hs.open_fresh res).mpr (by omega)
      have hopen : s.open res = ((s.open res).1, ⟨s.handles.insert (s.open res).1 res, []⟩) := by
        simp only [«open», hr]
      rw [AList.mem_keys] at hnew
      have hlen : (s.open res).2.handles.keys.length = s.handles.keys.length + 1 := by
        rw [hopen, AList.keys_insert, List.erase_of_not_mem hnew, List.length_cons]
      obtain ⟨t, ht, htr, htlen, hkeep⟩ := exec_opens res (n := n) (hs.open res)
        (by rw [hopen]) (by omega)
      refine ⟨t, ht, htr, by omega, fun fd r hfd => hkeep fd r ?_⟩
      exact hs.lookup_step (c := .open res) hfd (fun _ _ => by omega) nofun rfl

/-! ### Sequences of calls -/

/-- The set after a call. -/
def after (s : ResourceSet F) : ResourceCall F → ResourceSet F
  | .open res => (s.open res).2
  | .close fd => (s.close fd).2

def afterAll (s : ResourceSet F) (calls : List (ResourceCall F)) : ResourceSet F := calls.foldl after s

@[simp] theorem afterAll_cons (s : ResourceSet F) (c : ResourceCall F) (calls : List (ResourceCall F)) :
    s.afterAll (c :: calls) = (s.after c).afterAll calls := rfl

/-- The largest number of descriptors open at once, before the calls or after one of them. -/
def mostOpen (s : ResourceSet F) : List (ResourceCall F) → ℕ
  | [] => s.handles.keys.length
  | c :: calls => max s.handles.keys.length (mostOpen (s.after c) calls)

/-- The descriptor is open before the calls or after one of them. -/
def Used (s : ResourceSet F) (fd : UInt8) : List (ResourceCall F) → Prop
  | [] => fd ∈ s.handles
  | c :: calls => fd ∈ s.handles ∨ Used (s.after c) fd calls

instance decidableUsed (fd : UInt8) :
    ∀ (s : ResourceSet F) (calls : List (ResourceCall F)), Decidable (s.Used fd calls)
  | s, [] => inferInstanceAs (Decidable (fd ∈ s.handles))
  | s, c :: calls =>
      have := decidableUsed fd (s.after c) calls
      inferInstanceAs (Decidable (fd ∈ s.handles ∨ (s.after c).Used fd calls))

/-- The number of descriptors that are open or recycled. -/
def extent (s : ResourceSet F) : ℕ := s.handles.keys.length + s.recycled.length

theorem extent_default :
    (default : ResourceSet F).extent = (default : ResourceSet F).handles.keys.length := by
  rw [extent, recycled_default, List.length_nil, Nat.add_zero]

theorem Packed.after (h : s.Packed) : ∀ c, (s.after c).Packed
  | .open res => h.open res
  | .close fd => h.close fd

theorem Packed.afterAll : ∀ (calls : List (ResourceCall F)) {s : ResourceSet F}, s.Packed →
    (s.afterAll calls).Packed
  | [], _, h => h
  | c :: calls, _, h => Packed.afterAll calls (h.after c)

theorem Packed.mem_iff (h : s.Packed) {fd : UInt8} :
    fd ∈ s.handles ∨ fd ∈ s.recycled ↔ fd.toNat < s.extent := by
  obtain ⟨m, hm, hp⟩ := h
  have hlen := hp.length_eq
  rw [List.length_append, List.length_map, List.length_range] at hlen
  rw [AList.mem_keys, ← List.mem_append, hp.mem_iff, extent, hlen, ← ofNat_mem_firsts fd.toNat_lt hm,
    UInt8.ofNat_toNat]

theorem Packed.after_perm (h : s.Packed) (c : ResourceCall F) :
    ((s.after c).handles.keys ++ (s.after c).recycled).Perm (s.handles.keys ++ s.recycled) ∨
      (s.after c).recycled = [] ∧
        ∃ fd, (s.after c).handles.keys = fd :: (s.handles.keys ++ s.recycled) := by
  cases c with
  | «open» res =>
      rcases h.open_perm res with hmoved | ⟨hr, hr', -, hkeys⟩
      · exact Or.inl hmoved
      · exact Or.inr ⟨hr', _, by rw [hr, List.append_nil]; exact hkeys⟩
  | close fd => exact Or.inl (s.close_perm fd)

theorem Packed.extent_after (h : s.Packed) (c : ResourceCall F) :
    (s.after c).extent = max s.extent (s.after c).handles.keys.length := by
  rcases h.after_perm c with hmoved | ⟨hr, fd, hkeys⟩
  · have hlen := hmoved.length_eq
    simp only [List.length_append] at hlen
    unfold extent
    omega
  · have hlen := congrArg List.length hkeys
    simp only [List.length_cons, List.length_append] at hlen
    simp only [extent, hr, List.length_nil]
    omega

theorem Packed.mem_after (h : s.Packed) (c : ResourceCall F) (fd : UInt8) :
    fd ∈ (s.after c).handles ∨ fd ∈ (s.after c).recycled ↔
      (fd ∈ s.handles ∨ fd ∈ s.recycled) ∨ fd ∈ (s.after c).handles := by
  simp only [AList.mem_keys]
  rcases h.after_perm c with hmoved | ⟨hr, new, hkeys⟩
  · have hmem := hmoved.mem_iff (a := fd)
    simp only [List.mem_append] at hmem
    rw [← hmem]
    tauto
  · simp only [hr, hkeys, List.not_mem_nil, or_false, List.mem_cons, List.mem_append]
    tauto

theorem le_mostOpen (s : ResourceSet F) :
    ∀ calls, s.handles.keys.length ≤ s.mostOpen calls
  | [] => le_rfl
  | _ :: _ => le_max_left _ _

theorem used_of_mem {fd : UInt8} (h : fd ∈ s.handles) : ∀ calls, s.Used fd calls
  | [] => h
  | _ :: _ => Or.inl h

/-- The number of descriptors in use is the largest number open at once. -/
theorem Packed.extent_afterAll : ∀ (calls : List (ResourceCall F)) {s : ResourceSet F}, s.Packed →
    (s.afterAll calls).extent = max s.extent (s.mostOpen calls)
  | [], s, _ => (max_eq_left (Nat.le_add_right _ _)).symm
  | c :: calls, s, h => by
      have ih := Packed.extent_afterAll calls (h.after c)
      have hle := (s.after c).le_mostOpen calls
      have hlen : s.handles.keys.length ≤ s.extent := Nat.le_add_right _ _
      rw [h.extent_after c] at ih
      simp only [afterAll_cons, mostOpen, ih]
      omega

theorem Packed.mem_afterAll (fd : UInt8) : ∀ (calls : List (ResourceCall F)) {s : ResourceSet F},
    s.Packed → (fd ∈ (s.afterAll calls).handles ∨ fd ∈ (s.afterAll calls).recycled ↔
      fd ∈ s.recycled ∨ s.Used fd calls)
  | [], s, _ => or_comm
  | c :: calls, s, h => by
      have hused : fd ∈ (s.after c).handles → (s.after c).Used fd calls := fun hm => used_of_mem hm calls
      calc fd ∈ ((s.after c).afterAll calls).handles ∨ fd ∈ ((s.after c).afterAll calls).recycled
          ↔ fd ∈ (s.after c).recycled ∨ (s.after c).Used fd calls := Packed.mem_afterAll fd calls (h.after c)
        _ ↔ (fd ∈ (s.after c).handles ∨ fd ∈ (s.after c).recycled) ∨ (s.after c).Used fd calls := by
          rw [or_comm (a := fd ∈ (s.after c).handles), or_assoc, or_iff_right_of_imp hused]
        _ ↔ (fd ∈ s.handles ∨ fd ∈ s.recycled) ∨ (s.after c).Used fd calls := by
          rw [h.mem_after c fd, or_assoc, or_iff_right_of_imp hused]
        _ ↔ fd ∈ s.recycled ∨ s.Used fd (c :: calls) := by
          rw [or_comm (a := fd ∈ s.handles), or_assoc, Used]

end ResourceSet

variable {F : Type}

/-- **Descriptors stay apart while there is room.**  In every state reached from
`ResourceSet::default`: `open` returns a descriptor that is not open exactly when fewer than
`256` descriptors are open; it stores its resource under the descriptor it returns; and in every
run on which each `open` finds fewer than `256` open descriptors, a descriptor that is not closed
keeps its resource. -/
theorem descriptors_apart {s : ResourceSet F}
    (h : Run ResourceSet.step Any ResourceSet.default s) :
    (∀ res, (s.open res).1 ∉ s.handles ↔ s.handles.keys.length < 256) ∧
    (∀ res, (s.open res).2.handles.lookup (s.open res).1 = some res) ∧
    ∀ fd res t, s.handles.lookup fd = some res →
      Run ResourceSet.step (fun s c _ => s.HasRoom c ∧ c ≠ .close fd) s t →
      t.handles.lookup fd = some res := by
  have hs := ResourceSet.packed_of_run h
  refine ⟨hs.open_fresh, s.lookup_open, ?_⟩
  intro fd res t hfd ht
  have key : t.Packed ∧ t.handles.lookup fd = some res := by
    refine ht.invariant (P := fun t => t.Packed ∧ t.handles.lookup fd = some res) ⟨hs, hfd⟩ ?_
    intro s c t o hi hst hC
    exact ⟨hi.1.step hst, hi.1.lookup_step hi.2 hC.1 hC.2 hst⟩
  exact key.2

theorem descriptors_apart_example :
    ((((ResourceSet.default (F := ℕ)).open (.file 7)).2.close 0).2).handles.lookup 3 =
      some (.file 7) := by
  have hopen : Run ResourceSet.step Any (ResourceSet.default (F := ℕ))
      (ResourceSet.default.open (.file 7)).2 :=
    Relation.ReflTransGen.single ⟨.open (.file 7), _, rfl, trivial⟩
  apply (descriptors_apart hopen).2.2 3 (.file 7) _ rfl
  exact Relation.ReflTransGen.single ⟨.close 0, _, rfl, nofun, by decide⟩

/-- 253 calls of `open` after `default` leave standard input open, and the next one returns its
descriptor and replaces its resource. -/
theorem open_replaces_stdin : ∃ s : ResourceSet Unit,
    exec ResourceSet.step Any .default (List.replicate 253 (.open .null)) = some s ∧
    s.handles.lookup 0 = some (.console .stdin) ∧
    (s.open .null).1 = 0 ∧ (s.open .null).2.handles.lookup 0 = some .null := by
  obtain ⟨s, hs, hr, hlen, hkeep⟩ := ResourceSet.exec_opens (F := Unit) .null
    ResourceSet.packed_default rfl (n := 253) (by rfl)
  have hfd : (s.open .null).1 = 0 := by
    rw [ResourceSet.open_fst hr, hlen]
    rfl
  refine ⟨s, hs, hkeep 0 _ rfl, hfd, ?_⟩
  rw [← hfd, ResourceSet.lookup_open]

/-- **Descriptors are dense.**  After any calls of `open` and `close` on `ResourceSet::default`: the next
`open` returns a descriptor below the largest number of descriptors open at once, with the new one; `close`
returns whether its descriptor is open, a second `close` fails and changes nothing, and other descriptors keep
their resources; and if `open` returns a descriptor that has never been open, all that have been open still
are.  As at most 256 descriptors can be open, no call needs to be excluded. -/
theorem descriptors_dense (calls : List (ResourceCall F)) :
    let s := ResourceSet.default.afterAll calls
    (∀ res, (s.open res).1.toNat < ResourceSet.default.mostOpen (calls ++ [.open res])) ∧
    (∀ fd, (s.close fd).1 = true ↔ fd ∈ s.handles) ∧
    (∀ fd, (s.close fd).2.close fd = (false, (s.close fd).2)) ∧
    (∀ fd fd', fd' ≠ fd → (s.close fd).2.handles.lookup fd' = s.handles.lookup fd') ∧
    ∀ res, ¬ ResourceSet.default.Used (s.open res).1 calls →
      ∀ fd, ResourceSet.default.Used fd calls → fd ∈ s.handles := by
  intro s
  have hs : s.Packed := ResourceSet.packed_default.afterAll calls
  refine ⟨fun res => ?_, s.close_fst, s.close_close, fun fd fd' h => ResourceSet.lookup_close_ne h, ?_⟩
  · have hopen : ResourceSet.default.afterAll (calls ++ [.open res]) = (s.open res).2 := by
      rw [ResourceSet.afterAll, List.foldl_append]
      rfl
    have hmem := (hs.open res).mem_iff.mp (Or.inl (s.open_mem res))
    have hextent := ResourceSet.packed_default.extent_afterAll (calls ++ [.open res])
    rw [hopen] at hextent
    have hle := (ResourceSet.default (F := F)).le_mostOpen (calls ++ [.open res])
    rw [ResourceSet.extent_default, max_eq_right hle] at hextent
    rwa [← hextent]
  · intro res hnew fd hfd
    have hused : ∀ fd, fd ∈ s.handles ∨ fd ∈ s.recycled ↔ ResourceSet.default.Used fd calls := by
      intro fd
      have hmem := ResourceSet.packed_default.mem_afterAll fd calls
      rw [ResourceSet.recycled_default] at hmem
      simpa using hmem
    have hrecycled : s.recycled = [] := by
      by_contra hne
      exact hnew ((hused _).mp (Or.inr (ResourceSet.open_fst_mem hne res)))
    have hmem := (hused fd).mpr hfd
    rw [hrecycled] at hmem
    simpa using hmem

/-- Descriptor 0 is closed and reused, so the next one is new. -/
theorem descriptors_dense_example :
    (0 : UInt8) ∈ ((ResourceSet.default (F := Unit)).afterAll [.close 0, .open .null]).handles :=
  (descriptors_dense [.close 0, .open .null]).2.2.2.2 .null (by decide) 0 (by decide)

end Ysos
