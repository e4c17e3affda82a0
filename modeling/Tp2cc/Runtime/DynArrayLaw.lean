import Tp2cc.Machine.Buffer
import Tp2cc.Runtime.DynArray

/-! Reference counts against objects that are never freed: what a program of the types that
it is given to reads is the same, and at its end nothing is left. -/
set_option autoImplicit false

namespace Tp2cc.Rt
open Machine

variable {α : Type}

def Slot.erase : Slot α DynArray → Slot α (Option Nat)
  | .plain v => .plain v
  | .array d => .array d.data

/-- The slot is of a type of this depth, and its array is a block of elements that are one
less deep. `blocks` has the depths of the elements of the blocks. -/
def HasDepth (blocks : List Nat) : Nat → Slot α DynArray → Prop
  | 0, .plain _ => True
  | k+1, .array d => ∀ i ∈ d.data, blocks[i]? = some k
  | _, _ => False

def Loc.depth (vars blocks : List Nat) : Loc → Option Nat
  | .var x => vars[x]?
  | .element b _ => blocks[b]?

/-- The count is the length of the object, and empty arrays are nil. -/
def Sized (t : ObjectState α) : Slot α DynArray → Prop
  | .plain _ => True
  | .array d => d.count = (t.contents (.array d.data)).length ∧
      ((t.contents (.array d.data)).length = 0 → d.data = none)

/-- The state in the middle of an operation. `extra` are the references that the operation
itself has, and the count of the array at `but` is not yet right. -/
structure Mirrors (vars blocks extra : List Nat) (but : Option Loc) (s : ArrayState α)
    (t : ObjectState α) : Prop where
  length : s.vars.length = vars.length
  ranks : blocks.length = s.heap.next
  next : t.objects.next = s.heap.next
  erased : t.vars = s.vars.map Slot.erase
  objects : ∀ i xs, s.heap.get? i = some xs → t.objects.get? i = some (xs.map Slot.erase)
  counted : s.heap.Counted slotRefs (extra ++ slotRefs s.vars)
  typed : ∀ l c, s.read l = some c → ∃ k, l.depth vars blocks = some k ∧ HasDepth blocks k c
  sized : ∀ l c, but ≠ some l → s.read l = some c → Sized t c

/-! Reads after writes. -/
section

theorem slotRefs_set {xs : List (Slot α DynArray)} {i : Nat} {old : Slot α DynArray}
    (h : xs[i]? = some old) (new : Slot α DynArray) :
    (slotRefs (xs.set i new) ++ old.refs).Perm (slotRefs xs ++ new.refs) := by
  obtain ⟨hi, rfl⟩ := List.getElem?_eq_some_iff.mp h
  have hperm : ∀ ys : List (Slot α DynArray), (slotRefs ys).Perm (ys.flatMap Slot.refs) :=
    fun ys => ys.reverse_perm.flatMap_right _
  have hnew := (List.set_perm_cons_eraseIdx hi new).flatMap_right Slot.refs
  have hrest := (List.getElem_cons_eraseIdx_perm hi).flatMap_right Slot.refs
  rw [List.flatMap_cons] at hnew hrest
  refine (((hperm _).trans hnew).append_right _).trans
    (.trans ?_ (((hperm _).trans hrest.symm).append_right _).symm)
  grind

theorem ArrayState.read_write {s s' : ArrayState α} {l : Loc} {c : Slot α DynArray}
    (h : s.write l c = some s') (m : Loc) : s'.read m = if m = l then some c else s.read m := by
  cases l with
  | var x =>
    simp only [write, Option.ite_none_right_eq_some, Option.some.injEq] at h
    obtain ⟨hx, rfl⟩ := h
    cases m with
    | var y => grind [read]
    | element b i => simp [read]
  | element b i =>
    simp only [write, Option.bind_eq_bind, Option.bind_eq_some_iff] at h
    obtain ⟨xs, hxs, h⟩ := h
    split at h
    next hi =>
      simp only [Option.bind_eq_some_iff] at h
      obtain ⟨heap, hput, h⟩ := h
      cases h
      cases m with
      | var y => simp [read]
      | element b' j =>
        simp only [read, SharedHeap.get?_put hput]
        grind
    · cases h

theorem ArrayState.write_some {s : ArrayState α} {l : Loc} {old : Slot α DynArray}
    (h : s.read l = some old) (c : Slot α DynArray) : ∃ s', s.write l c = some s' := by
  cases l with
  | var x =>
    have hx := (List.getElem?_eq_some_iff.mp h).1
    exact ⟨_, if_pos hx⟩
  | element b i =>
    obtain ⟨xs, hxs, hi⟩ := Option.bind_eq_some_iff.mp h
    obtain ⟨blk, hblk, _⟩ := SharedHeap.get?_eq_some.mp hxs
    have hlt := (List.getElem?_eq_some_iff.mp hi).1
    have hput := SharedHeap.put_eq_some (v := xs.set i c).mpr ⟨blk, hblk, rfl⟩
    exact ⟨_, by simp [write, hxs, hlt, hput]; rfl⟩

theorem ObjectState.read_write {t : ObjectState α} {l : Loc} {old : Slot α (Option Nat)}
    (h : t.read l = some old) (c : Slot α (Option Nat)) (m : Loc) :
    (t.write l c).read m = if m = l then some c else t.read m := by
  cases l with
  | var x =>
    have hx := (List.getElem?_eq_some_iff.mp h).1
    cases m with
    | var y => grind [read, write]
    | element b i => simp [read, write]
  | element b i =>
    obtain ⟨xs, hxs, hi⟩ := Option.bind_eq_some_iff.mp h
    cases m with
    | var y => simp [read, write]
    | element b' j =>
      have hlt := (List.getElem?_eq_some_iff.mp hi).1
      by_cases hb : b = b'
      · subst hb
        simp only [read, write, hxs, Arena.get?_set_self (Arena.lt_next_of_get? hxs)]
        grind
      · simp only [read, write, Arena.get?_set_ne hb]
        grind

theorem ObjectState.contents_write (t : ObjectState α) (l : Loc) (c x : Slot α (Option Nat)) :
    ((t.write l c).contents x).length = (t.contents x).length := by
  cases l with
  | var _ => cases x <;> rfl
  | element b i =>
    match x with
    | .plain _ | .array none => rfl
    | .array (some j) =>
      simp only [contents, write]
      by_cases hb : b = j
      · subst hb
        cases hg : t.objects.get? b with
        | none =>
          have hle : t.objects.next ≤ b := by
            by_contra hlt
            obtain ⟨xs, hxs⟩ := Arena.exists_get? (a := t.objects) (Nat.lt_of_not_le hlt)
            simp [hxs] at hg
          have hnone : (t.objects.set b ([].set i c)).get? b = none := by
            rw [Arena.get?, Arena.set]
            exact List.getElem?_eq_none (by simpa [Arena.next] using hle)
          simpa using congrArg (fun o => (o.getD []).length) hnone
        | some xs =>
          rw [Arena.get?_set_self (Arena.lt_next_of_get? hg)]
          simp
      · rw [Arena.get?_set_ne hb]

theorem Sized.write {t : ObjectState α} {x : Slot α DynArray} (h : Sized t x) (l : Loc)
    (c : Slot α (Option Nat)) : Sized (t.write l c) x := by
  cases x with
  | plain v => trivial
  | array d => simpa only [Sized, ObjectState.contents_write] using h

theorem ObjectState.write_self {t : ObjectState α} {l : Loc} {c : Slot α (Option Nat)}
    (h : t.read l = some c) : t.write l c = t := by
  cases l with
  | var x =>
    obtain ⟨hx, rfl⟩ := List.getElem?_eq_some_iff.mp h
    simp [write]
  | element b i =>
    obtain ⟨xs, hxs, hi⟩ := Option.bind_eq_some_iff.mp h
    obtain ⟨hlt, rfl⟩ := List.getElem?_eq_some_iff.mp hi
    obtain ⟨hb, rfl⟩ := List.getElem?_eq_some_iff.mp hxs
    simp [write, hxs, Arena.set]

end

/-! What the invariant says about one location. -/
section
variable {vars blocks extra : List Nat} {but : Option Loc} {s : ArrayState α} {t : ObjectState α}

theorem Mirrors.read (m : Mirrors vars blocks extra but s t) {l : Loc} {c : Slot α DynArray}
    (h : s.read l = some c) : t.read l = some c.erase := by
  cases l with
  | var x =>
    rw [ArrayState.read] at h
    rw [ObjectState.read, m.erased, List.getElem?_map, h]
    rfl
  | element b i =>
    obtain ⟨xs, hxs, hi⟩ := Option.bind_eq_some_iff.mp h
    rw [ObjectState.read, m.objects b xs hxs, Option.bind_some, List.getElem?_map, hi]
    rfl

theorem readArray_eq_some {l : Loc} {d : DynArray} :
    s.readArray l = some d ↔ s.read l = some (.array d) := by
  rw [ArrayState.readArray]
  split <;> simp_all

theorem mem_slotRefs {xs : List (Slot α DynArray)} {j : Nat} :
    j ∈ slotRefs xs ↔ ∃ (i : Nat) (d : DynArray), xs[i]? = some (.array d) ∧ d.data = some j := by
  simp only [slotRefs, List.mem_flatMap, List.mem_reverse]
  constructor
  · rintro ⟨c, hc, hj⟩
    obtain ⟨i, hi⟩ := List.mem_iff_getElem?.mp hc
    cases c with
    | plain v => simp [Slot.refs] at hj
    | array d => exact ⟨i, d, hi, by simpa [Slot.refs] using hj⟩
  · rintro ⟨i, d, hi, hj⟩
    exact ⟨.array d, List.mem_of_getElem? hi, by simp [Slot.refs, hj]⟩

theorem mem_refs_of_read {l : Loc} {d : DynArray} {j : Nat} (h : s.readArray l = some d)
    (hj : d.data = some j) : j ∈ (extra ++ slotRefs s.vars) ++ s.heap.held slotRefs := by
  rw [readArray_eq_some] at h
  cases l with
  | var x =>
    have := mem_slotRefs.mpr ⟨x, d, h, hj⟩
    simp [this]
  | element b i =>
    obtain ⟨xs, hxs, hi⟩ := Option.bind_eq_some_iff.mp h
    have := SharedHeap.mem_held hxs (mem_slotRefs.mpr ⟨i, d, hi, hj⟩)
    simp [this]

theorem Mirrors.block (m : Mirrors vars blocks extra but s t) {l : Loc} {d : DynArray} {j : Nat}
    (h : s.readArray l = some d) (hj : d.data = some j) : ∃ xs, s.heap.get? j = some xs :=
  m.counted.get? (mem_refs_of_read h hj)

theorem Mirrors.ranked (m : Mirrors vars blocks extra but s t) :
    s.heap.Ranked slotRefs fun i => blocks[i]?.getD 0 := by
  intro i xs hxs j hj
  obtain ⟨n, d, hn, hd⟩ := mem_slotRefs.mp hj
  obtain ⟨k, hk, htyped⟩ := m.typed (.element i n) (.array d) (Option.bind_eq_some_iff.mpr ⟨xs, hxs, hn⟩)
  cases k with
  | zero => exact htyped.elim
  | succ k =>
    have hi : blocks[i]? = some (k+1) := hk
    simp [hi, htyped j hd]

theorem Mirrors.depth_array (m : Mirrors vars blocks extra but s t) {l : Loc} {d : DynArray}
    {k : Nat} (h : s.readArray l = some d) (hk : l.depth vars blocks = some (k+1)) :
    ∀ i ∈ d.data, blocks[i]? = some k := by
  obtain ⟨k', hk', htyped⟩ := m.typed l _ (readArray_eq_some.mp h)
  obtain rfl : k+1 = k' := Option.some.inj (hk.symm.trans hk')
  exact htyped

end
/-! What the members of a `shared_ptr` do to the invariant. -/
section
variable {vars blocks extra : List Nat} {but : Option Loc} {s : ArrayState α}
  {t : ObjectState α}

/-- A location takes over references of the operation, which takes over some that were
there. -/
theorem Mirrors.write {came gone : List Nat} {old : Slot α DynArray} {l : Loc} {k : Nat}
    (m : Mirrors vars blocks (came ++ extra) but s t) (new : Slot α DynArray) (but' : Option Loc)
    (hl : s.read l = some old)
    (hrefs : (new.refs ++ gone).Perm (old.refs ++ came))
    (hk : l.depth vars blocks = some k) (hnew : HasDepth blocks k new)
    (hsized : but' ≠ some l → Sized t new) (hbut : ∀ l', l' ≠ l → but' ≠ some l' → but ≠ some l') :
    ∃ s', s.write l new = some s' ∧
      Mirrors vars blocks (gone ++ extra) but' s' (t.write l new.erase) := by
  have hset : ∀ {xs : List (Slot α DynArray)} {i : Nat}, xs[i]? = some old →
      (slotRefs (xs.set i new) ++ gone).Perm (slotRefs xs ++ came) := by
    intro xs i hi
    refine List.perm_iff_count.mpr fun j => ?_
    have hcount := (slotRefs_set hi new).count_eq j
    have hcount' := hrefs.count_eq j
    simp only [List.count_append] at hcount hcount' ⊢
    omega
  obtain ⟨s', hs'⟩ := ArrayState.write_some hl new
  have hread := ArrayState.read_write hs'
  have htyped : ∀ l' c, s'.read l' = some c →
      ∃ k, l'.depth vars blocks = some k ∧ HasDepth blocks k c := by
    intro l' c hc
    rw [hread] at hc
    split at hc
    next heq =>
      cases hc
      exact ⟨k, heq ▸ hk, hnew⟩
    · exact m.typed l' c hc
  have hsized' : ∀ l' c, but' ≠ some l' → s'.read l' = some c → Sized (t.write l new.erase) c := by
    intro l' c hne hc
    rw [hread] at hc
    split at hc
    next heq =>
      cases hc
      exact (hsized (heq ▸ hne)).write l _
    next heq => exact (m.sized l' c (hbut l' heq hne) hc).write l _
  refine ⟨s', hs', ?_⟩
  cases l with
  | var x =>
    have hx := (List.getElem?_eq_some_iff.mp hl).1
    rw [ArrayState.write, if_pos hx, Option.some.injEq] at hs'
    subst hs'
    refine ⟨by simpa using m.length, m.ranks, m.next, ?_, m.objects, ?_, htyped, hsized'⟩
    · simp [ObjectState.write, m.erased, List.map_set]
    · refine SharedHeap.counted_perm m.counted (List.perm_iff_count.mpr fun j => ?_)
      have hcount := (hset hl).count_eq j
      simp only [List.count_append] at hcount ⊢
      omega
  | element b i =>
    obtain ⟨xs, hxs, hi⟩ := Option.bind_eq_some_iff.mp hl
    have hlt := (List.getElem?_eq_some_iff.mp hi).1
    have hc := m.counted
    rw [List.append_assoc] at hc
    obtain ⟨heap, hput, hcounted⟩ := hc.put hxs (hset hi)
    have hheap : s' = { s with heap } := by
      simpa [ArrayState.write, hxs, hlt, hput] using hs'.symm
    subst hheap
    refine ⟨m.length, by rw [m.ranks, SharedHeap.next_put hput], ?_, m.erased, ?_, ?_, htyped, hsized'⟩
    · rw [SharedHeap.next_put hput, ← m.next]
      simp [ObjectState.write, Arena.next, Arena.set]
    · intro j ys hys
      rw [SharedHeap.get?_put hput] at hys
      split at hys
      next hj =>
        cases hys
        simp only [ObjectState.write, hj]
        rw [Arena.get?_set_self (by rw [m.next]; exact SharedHeap.lt_next_of_get? hxs),
          m.objects b xs hxs, Option.getD_some, List.map_set]
      next hj =>
        rw [ObjectState.write, Arena.get?_set_ne (Ne.symm hj)]
        exact m.objects j ys hys
    · rw [List.append_assoc]
      exact hcounted

/-- Locations of types at least this deep, other than `p`, read the same. -/
def Keeps (vars blocks : List Nat) (k : Nat) (p : Loc) (s s' : ArrayState α) : Prop :=
  ∀ l j, l ≠ p → l.depth vars blocks = some j → k ≤ j → s'.read l = s.read l

theorem Mirrors.retainData {data : Option Nat} {l : Loc} {d : DynArray}
    (m : Mirrors vars blocks extra but s t) (hl : s.readArray l = some d) (hd : d.data = data) :
    ∃ s', s.retainData data = some s' ∧ Mirrors vars blocks (data.toList ++ extra) but s' t ∧
      ∀ l', s'.read l' = s.read l' := by
  cases data with
  | none => exact ⟨s, rfl, m, fun _ => rfl⟩
  | some i =>
    obtain ⟨heap, hheap, hcounted⟩ := m.counted.retain (mem_refs_of_read hl hd)
    have hget := SharedHeap.get?_retain hheap
    have hread : ∀ l', ArrayState.read { s with heap } l' = s.read l' := by
      intro l'
      cases l' with
      | var x => rfl
      | element b j => simp only [ArrayState.read, hget]
    refine ⟨{ s with heap }, by rw [ArrayState.retainData, hheap]; rfl, ?_, hread⟩
    refine ⟨m.length, by rw [m.ranks, SharedHeap.next_retain hheap],
      by rw [m.next, SharedHeap.next_retain hheap], m.erased, ?_, hcounted, ?_, ?_⟩
    · intro j xs hxs
      exact m.objects j xs (hget j ▸ hxs)
    · intro l' c hc
      exact m.typed l' c (hread l' ▸ hc)
    · intro l' c hne hc
      exact m.sized l' c hne (hread l' ▸ hc)

theorem Mirrors.releaseData {data : Option Nat}
    (m : Mirrors vars blocks (data.toList ++ extra) but s t) :
    ∃ s', s.releaseData data = some s' ∧ Mirrors vars blocks extra but s' t ∧
      ∀ i ∈ data, ∀ j, blocks[i]? = some j → ∀ l k, l.depth vars blocks = some k → j < k →
        s'.read l = s.read l := by
  cases data with
  | none => exact ⟨s, rfl, m, by simp⟩
  | some i =>
    obtain ⟨heap, hheap, hcounted⟩ := SharedHeap.Counted.release (i := i) m.counted
    have htrim := SharedHeap.release_trims hheap
    have hread : ∀ l c, ArrayState.read { s with heap } l = some c → s.read l = some c := by
      intro l c hc
      cases l with
      | var x => exact hc
      | element b j =>
        obtain ⟨xs, hxs, hj⟩ := Option.bind_eq_some_iff.mp hc
        exact Option.bind_eq_some_iff.mpr ⟨xs, htrim.get? b xs hxs, hj⟩
    refine ⟨{ s with heap }, by rw [ArrayState.releaseData, hheap]; rfl, ?_, ?_⟩
    · exact ⟨m.length, by rw [m.ranks, ← htrim.next], by rw [m.next, ← htrim.next], m.erased,
        fun j xs hxs => m.objects j xs (htrim.get? j xs hxs), hcounted,
        fun l c hc => m.typed l c (hread l c hc), fun l c hne hc => m.sized l c hne (hread l c hc)⟩
    · rintro _ ⟨⟩ j hj l k hk hlt
      cases l with
      | var x => rfl
      | element b n =>
        have hb : blocks[b]? = some k := hk
        have hrank : (blocks[i]?.getD 0) < (blocks[b]?.getD 0) := by simpa [hj, hb] using hlt
        simp only [ArrayState.read, SharedHeap.release_keeps m.ranked hrank hheap]

end
/-! Assignments: both members of the array, one after the other. -/
section
variable {vars blocks extra : List Nat} {s : ArrayState α} {t : ObjectState α} {p : Loc} {k : Nat}

theorem Keeps.trans {s1 s2 s3 : ArrayState α} (h : Keeps vars blocks k p s1 s2)
    (h' : Keeps vars blocks k p s2 s3) : Keeps vars blocks k p s1 s3 :=
  fun l j hl hj hk => (h' l j hl hj hk).trans (h l j hl hj hk)

theorem readArray_of_read {s' : ArrayState α} {l : Loc} (h : s'.read l = s.read l) :
    s'.readArray l = s.readArray l := by
  simp only [ArrayState.readArray, h]

theorem Mirrors.setData {data : Option Nat} {old : DynArray}
    (m : Mirrors vars blocks (data.toList ++ extra) none s t) (hp : s.readArray p = some old)
    (hk : p.depth vars blocks = some (k+1)) (hdata : ∀ i ∈ data, blocks[i]? = some k) :
    ∃ s', s.setData p data = some s' ∧
      Mirrors vars blocks extra (some p) s' (t.write p (.array data)) ∧
      s'.readArray p = some { old with data } ∧ Keeps vars blocks (k+1) p s s' := by
  obtain ⟨s1, hwrite, m1⟩ := m.write (.array { old with data }) (some p)
    (readArray_eq_some.mp hp) List.perm_append_comm hk hdata (absurd rfl) (by simp)
  obtain ⟨s2, hrelease, m2, hkeeps⟩ := m1.releaseData
  have hread := ArrayState.read_write hwrite
  -- What the release frees is less deep than the location.
  have hkeep : ∀ l j, l.depth vars blocks = some j → k < j → s2.read l = s1.read l := by
    intro l j hj hlt
    cases hold : old.data with
    | none =>
      rw [hold] at hrelease
      cases hrelease
      rfl
    | some i => exact hkeeps i hold k (m.depth_array hp hk i hold) l j hj hlt
  refine ⟨s2, by simp [ArrayState.setData, hp, hwrite, hrelease], m2, ?_, ?_⟩
  · rw [readArray_of_read (hkeep p (k+1) hk (Nat.lt_succ_self k)), readArray_eq_some, hread, if_pos rfl]
  · intro l j hl hj hlt
    rw [hkeep l j hj hlt, hread, if_neg hl]

theorem Mirrors.setCount {d : DynArray} (m : Mirrors vars blocks extra (some p) s t) (count : Int)
    (hp : s.readArray p = some d) (hsized : Sized t (.array { d with count })) :
    ∃ s', s.setCount p count = some s' ∧ Mirrors vars blocks extra none s' t ∧
      ∀ l, l ≠ p → s'.read l = s.read l := by
  have hread := readArray_eq_some.mp hp
  obtain ⟨k, hk, htyped⟩ := m.typed p _ hread
  have hdepth : HasDepth blocks k (.array { d with count } : Slot α DynArray) := by
    cases k with
    | zero => exact htyped.elim
    | succ k => exact htyped
  obtain ⟨s', hwrite, m'⟩ := Mirrors.write m (.array { d with count }) none hread
    (.refl ((Slot.array d : Slot α DynArray).refs ++ [])) hk hdepth
    (fun _ => hsized) (fun l hl _ => by simpa [eq_comm] using hl)
  have hsame : t.write p (.array d.data) = t := ObjectState.write_self (m.read hread)
  refine ⟨s', by simp [ArrayState.setCount, hp, hwrite], hsame ▸ m', fun l hl => ?_⟩
  rw [ArrayState.read_write hwrite, if_neg hl]

theorem Mirrors.moveAssign {d old : DynArray}
    (m : Mirrors vars blocks (d.data.toList ++ extra) none s t) (hp : s.readArray p = some old)
    (hk : p.depth vars blocks = some (k+1)) (hd : ∀ i ∈ d.data, blocks[i]? = some k)
    (hsized : Sized t (.array d)) :
    ∃ s', s.moveAssign p d = some s' ∧ Mirrors vars blocks extra none s' (t.write p (.array d.data)) ∧
      Keeps vars blocks (k+1) p s s' := by
  obtain ⟨s1, hset, m1, hp1, hkeeps⟩ := m.setData hp hk hd
  obtain ⟨s2, hcount, m2, hread⟩ := m1.setCount d.count hp1 (hsized.write p _)
  exact ⟨s2, by simp [ArrayState.moveAssign, hset, hcount], m2,
    hkeeps.trans fun l _ hl _ _ => hread l hl⟩

/-- The source is not in a block that the assignment frees: it is as deep as the target, and
what is freed is less deep. So its count can still be read. -/
theorem Mirrors.copyAssign {q : Loc} {old src : DynArray} (m : Mirrors vars blocks extra none s t)
    (hp : s.readArray p = some old) (hk : p.depth vars blocks = some (k+1))
    (hq : s.readArray q = some src) (hk' : q.depth vars blocks = some (k+1)) :
    ∃ s', s.copyAssign p q = some s' ∧
      Mirrors vars blocks extra none s' (t.write p (.array src.data)) ∧
      Keeps vars blocks (k+1) p s s' := by
  obtain ⟨s1, hretain, m1, hread1⟩ := m.retainData hq rfl
  obtain ⟨s2, hset, m2, hp2, hkeeps⟩ := m1.setData (by rw [readArray_of_read (hread1 p), hp]) hk
    (m.depth_array hq hk')
  have hsized := m.sized q _ (by simp) (readArray_eq_some.mp hq)
  obtain ⟨d, hd, hdcount⟩ : ∃ d, s2.readArray q = some d ∧ d.count = src.count := by
    by_cases hqp : q = p
    · subst hqp
      refine ⟨_, hp2, ?_⟩
      rw [Option.some.inj (hp.symm.trans hq)]
    · refine ⟨src, ?_, rfl⟩
      rw [readArray_of_read (hkeeps q _ hqp hk' (le_refl _)), readArray_of_read (hread1 q), hq]
  obtain ⟨s3, hfinal, m3, hread3⟩ := m2.setCount d.count hp2
    (hdcount ▸ hsized.write p _)
  refine ⟨s3, by simp [ArrayState.copyAssign, hq, hretain, hset, hd, hfinal], m3, ?_⟩
  intro l j hl hj hlt
  rw [hread3 l hl, hkeeps l j hl hj hlt, hread1]

theorem Mirrors.store {v w : α} (m : Mirrors vars blocks extra none s t)
    (hp : s.read p = some (.plain w)) (hk : p.depth vars blocks = some 0) :
    ∃ s', s.store p v = some s' ∧ Mirrors vars blocks extra none s' (t.write p (.plain v)) ∧
      Keeps vars blocks 0 p s s' := by
  obtain ⟨s', hwrite, m'⟩ := Mirrors.write m (.plain v) none hp
    (.refl ((Slot.plain v : Slot α DynArray).refs ++ [])) hk trivial (fun _ => trivial)
    (fun _ _ h => h)
  refine ⟨s', by simp [ArrayState.store, hp, hwrite], m', fun l j hl _ _ => ?_⟩
  rw [ArrayState.read_write hwrite, if_neg hl]

theorem Mirrors.plain_or_array (m : Mirrors vars blocks extra none s t) {c : Slot α DynArray}
    (hp : s.read p = some c) (hk : p.depth vars blocks = some k) :
    (k = 0 ∧ ∃ v, c = .plain v) ∨ ∃ j d, k = j+1 ∧ c = .array d := by
  obtain ⟨k', hk', htyped⟩ := m.typed p c hp
  obtain rfl : k = k' := Option.some.inj (hk.symm.trans hk')
  match k, c, htyped with
  | 0, .plain v, _ => exact .inl ⟨rfl, v, rfl⟩
  | j+1, .array d, _ => exact .inr ⟨j, d, rfl, rfl⟩

theorem Mirrors.assignSlot {q : Loc} {old src : Slot α DynArray}
    (m : Mirrors vars blocks extra none s t) (hp : s.read p = some old)
    (hk : p.depth vars blocks = some k) (hq : s.read q = some src)
    (hk' : q.depth vars blocks = some k) :
    ∃ s', s.assignSlot p q = some s' ∧ Mirrors vars blocks extra none s' (t.write p src.erase) ∧
      Keeps vars blocks k p s s' := by
  rw [ArrayState.assignSlot, hq]
  obtain ⟨rfl, w, rfl⟩ | ⟨j, d, rfl, rfl⟩ := m.plain_or_array hp hk <;>
    obtain ⟨hk0, v, rfl⟩ | ⟨j', d', hkj, rfl⟩ := m.plain_or_array hq hk'
  · exact m.store hp hk
  · omega
  · omega
  · exact m.copyAssign (readArray_eq_some.mpr hp) hk (readArray_eq_some.mpr hq) hk'

end
/-! New blocks, which are filled before anything else refers to them. -/
section
variable {vars blocks extra : List Nat} {s : ArrayState α} {t : ObjectState α} {k : Nat}

theorem ObjectState.alloc_write (t : ObjectState α) (ys : List (Slot α (Option Nat))) (i : Nat)
    (c : Slot α (Option Nat)) :
    (t.alloc ys).write (.element t.objects.next i) c = t.alloc (ys.set i c) := by
  simp [alloc, write]

theorem ObjectState.contents_alloc (t : ObjectState α) (ys : List (Slot α (Option Nat)))
    {data : Option Nat} (h : ∀ b ∈ data, b < t.objects.next) :
    (t.alloc ys).contents (.array data) = t.contents (.array data) := by
  cases data with
  | none => rfl
  | some b => rw [contents, contents, alloc, (Arena.extends_push _ _).get? (h b rfl)]

theorem ObjectState.contents_alloc_next (t : ObjectState α) (ys : List (Slot α (Option Nat))) :
    (t.alloc ys).contents (.array (some t.objects.next)) = ys := by
  simp [alloc, contents]

theorem Loc.depth_append {l : Loc} {j : Nat} (h : l.depth vars blocks = some j) (more : List Nat) :
    l.depth vars (blocks ++ more) = some j := by
  cases l with
  | var x => exact h
  | element b i =>
    rw [Loc.depth] at h ⊢
    rw [List.getElem?_append_left (List.getElem?_eq_some_iff.mp h).1, h]

theorem HasDepth.append {c : Slot α DynArray} (h : HasDepth blocks k c) (more : List Nat) :
    HasDepth (blocks ++ more) k c := by
  match k, c, h with
  | 0, .plain _, _ => trivial
  | j+1, .array d, h =>
    intro i hi
    rw [List.getElem?_append_left (List.getElem?_eq_some_iff.mp (h i hi)).1, h i hi]

theorem ArrayState.read_make {l : Loc} {c : Slot α DynArray} (h : s.read l = some c)
    (xs : List (Slot α DynArray)) : (s.make xs).read l = some c := by
  cases l with
  | var x => exact h
  | element b i =>
    obtain ⟨ys, hys, hi⟩ := Option.bind_eq_some_iff.mp h
    have hne : b ≠ s.heap.next := Nat.ne_of_lt (SharedHeap.lt_next_of_get? hys)
    rw [read, make, SharedHeap.get?_make, if_neg hne, hys]
    exact hi

theorem defaultSlot_refs [Inhabited α] (k : Nat) :
    (ArrayState.defaultSlot k : Slot α DynArray).refs = [] := by
  cases k <;> rfl

theorem defaultSlot_erase [Inhabited α] (k : Nat) :
    (ArrayState.defaultSlot k : Slot α DynArray).erase = ObjectState.defaultSlot k := by
  cases k <;> rfl

theorem defaultSlot_depth [Inhabited α] (k : Nat) :
    HasDepth blocks k (ArrayState.defaultSlot k : Slot α DynArray) := by
  cases k with
  | zero => trivial
  | succ k => rintro i ⟨⟩

theorem defaultSlot_sized [Inhabited α] (k : Nat) (t : ObjectState α) :
    Sized t (ArrayState.defaultSlot k) := by
  cases k with
  | zero => trivial
  | succ k => exact ⟨rfl, fun _ => rfl⟩

theorem Sized.alloc {c : Slot α DynArray} (h : Sized t c) (ys : List (Slot α (Option Nat)))
    (hlt : ∀ d b, c = .array d → d.data = some b → b < t.objects.next) : Sized (t.alloc ys) c := by
  cases c with
  | plain v => trivial
  | array d => rwa [Sized, ObjectState.contents_alloc t ys fun b hb => hlt d b rfl hb]

theorem Mirrors.data_lt {but : Option Loc} (m : Mirrors vars blocks extra but s t) {l : Loc}
    {d : DynArray} (h : s.readArray l = some d) : ∀ b ∈ d.data, b < t.objects.next := by
  intro b hb
  obtain ⟨xs, hxs⟩ := m.block h hb
  rw [m.next]
  exact SharedHeap.lt_next_of_get? hxs

theorem Mirrors.make [Inhabited α] (m : Mirrors vars blocks extra none s t) (k n : Nat) :
    Mirrors vars (blocks ++ [k]) (t.objects.next :: extra) none
      (s.make (List.replicate n (ArrayState.defaultSlot k)))
      (t.alloc (List.replicate n (ObjectState.defaultSlot k))) := by
  have hread : ∀ l c, (s.make (List.replicate n (ArrayState.defaultSlot k))).read l = some c →
      s.read l = some c ∨ (c = ArrayState.defaultSlot k ∧ ∃ i, l = .element t.objects.next i) := by
    intro l c hc
    cases l with
    | var x => exact .inl hc
    | element b i =>
      obtain ⟨ys, hys, hi⟩ := Option.bind_eq_some_iff.mp hc
      rw [ArrayState.make, SharedHeap.get?_make] at hys
      split at hys
      next hb =>
        cases hys
        exact .inr ⟨List.eq_of_mem_replicate (List.mem_of_getElem? hi), i, by rw [m.next, hb]⟩
      · exact .inl (Option.bind_eq_some_iff.mpr ⟨ys, hys, hi⟩)
  refine ⟨m.length, by simp [ArrayState.make, m.ranks], ?_, m.erased, ?_, ?_, ?_, ?_⟩
  · simp [ObjectState.alloc, ArrayState.make, m.next]
  · intro i xs hxs
    rw [ArrayState.make, SharedHeap.get?_make] at hxs
    split at hxs
    next hi =>
      cases hxs
      rw [hi, ← m.next, ObjectState.alloc, Arena.get?_push_next, List.map_replicate, defaultSlot_erase]
    · have hlt := SharedHeap.lt_next_of_get? hxs
      rw [ObjectState.alloc, (Arena.extends_push _ _).get? (by rw [m.next]; exact hlt)]
      exact m.objects i xs hxs
  · rw [m.next]
    refine SharedHeap.Counted.make ?_
    have hnone : slotRefs (List.replicate n (ArrayState.defaultSlot k : Slot α DynArray)) = [] := by
      simp [slotRefs, defaultSlot_refs]
    rw [hnone]
    exact m.counted
  · intro l c hc
    obtain hc | ⟨rfl, i, rfl⟩ := hread l c hc
    · obtain ⟨j, hj, htyped⟩ := m.typed l c hc
      exact ⟨j, Loc.depth_append hj _, htyped.append _⟩
    · refine ⟨k, ?_, defaultSlot_depth k⟩
      rw [Loc.depth, m.next, ← m.ranks]
      simp
  · intro l c hne hc
    obtain hc | ⟨rfl, i, rfl⟩ := hread l c hc
    · refine (m.sized l c hne hc).alloc _ fun d b hd hb => ?_
      subst hd
      exact m.data_lt (readArray_eq_some.mpr hc) b hb
    · exact defaultSlot_sized k _

end
/-! The loops, and the operations that have them. -/
section
variable {vars blocks extra : List Nat} {s : ArrayState α} {t : ObjectState α} {k : Nat}

def Held (vars blocks extra : List Nat) (k : Nat) (s : ArrayState α) (dest : Nat) : Prop :=
  dest ∈ extra ∨ ∃ r e, r.depth vars blocks = some (k+1) ∧ s.readArray r = some e ∧
    e.data = some dest

theorem Mirrors.held {dest : Nat} (m : Mirrors vars blocks extra none s t)
    (h : Held vars blocks extra k s dest) : ∃ xs, s.heap.get? dest = some xs := by
  obtain h | ⟨r, e, _, hr, he⟩ := h
  · exact m.counted.get? (by simp [h])
  · exact m.block hr he

theorem Mirrors.element (m : Mirrors vars blocks extra none s t) {b i : Nat}
    {xs : List (Slot α DynArray)} (hxs : s.heap.get? b = some xs)
    {ys : List (Slot α (Option Nat))} (hys : t.objects.get? b = some ys) {c : Slot α (Option Nat)}
    (hc : ys[i]? = some c) : ∃ x, s.read (.element b i) = some x ∧ x.erase = c := by
  obtain rfl : xs.map Slot.erase = ys := Option.some.inj ((m.objects b xs hxs).symm.trans hys)
  rw [List.getElem?_map] at hc
  obtain ⟨x, hx, hxc⟩ := Option.map_eq_some_iff.mp hc
  exact ⟨x, by rw [ArrayState.read, hxs, Option.bind_some, hx], hxc⟩

theorem elementAt_some {d : DynArray} {b i : Nat} {xs : List (Slot α DynArray)}
    (hb : d.data = some b) (hxs : s.heap.get? b = some xs) (hi : i < xs.length) :
    s.elementAt d i = some (.element b i) := by
  simp [ArrayState.elementAt, hb, hxs, hi]

theorem Mirrors.copyElements {a : Loc} {d : DynArray} (hk : a.depth vars blocks = some (k+1))
    (hdest : blocks[t.objects.next]? = some k) (hold : ∀ b ∈ d.data, b < t.objects.next) {n i : Nat}
    {ys : List (Slot α (Option Nat))} (m : Mirrors vars blocks extra none s (t.alloc ys))
    (ha : s.readArray a = some d) (hheld : Held vars blocks extra k s t.objects.next)
    (hn : i+n ≤ (t.contents (.array d.data)).length) (hys : i+n ≤ ys.length) :
    ∃ s', ArrayState.copyElements t.objects.next a n i s = some s' ∧
      Mirrors vars blocks extra none s'
        (t.alloc (writeAt ys i (((t.contents (.array d.data)).drop i).take n))) ∧
      ∀ l, l.depth vars blocks = some (k+1) → s'.read l = s.read l := by
  induction n generalizing i s ys with
  | zero => exact ⟨s, rfl, by simpa [writeAt] using m, fun _ _ => rfl⟩
  | succ n ih =>
    set xs := t.contents (.array d.data) with hxs
    obtain ⟨b, hb⟩ : ∃ b, d.data = some b := by
      cases hd : d.data with
      | none => simp [hxs, hd, ObjectState.contents] at hn
      | some b => exact ⟨b, rfl⟩
    have hlt := hold b hb
    obtain ⟨c, hc⟩ : ∃ c, xs[i]? = some c := ⟨_, List.getElem?_eq_getElem (by omega)⟩
    obtain ⟨cs, hcs⟩ := m.block ha hb
    have hobject : (t.alloc ys).objects.get? b = some xs := by
      obtain ⟨zs, hzs⟩ := Arena.exists_get? hlt
      rw [ObjectState.alloc, (Arena.extends_push _ _).get? hlt, hzs, hxs, hb]
      simp [ObjectState.contents, hzs]
    obtain ⟨x, hx, hxc⟩ := m.element hcs hobject hc
    -- The element of the new block that is written.
    obtain ⟨zs, hzs⟩ := m.held hheld
    obtain ⟨y, hy, _⟩ := m.element (i := i) hzs (by rw [ObjectState.alloc, Arena.get?_push_next])
      (List.getElem?_eq_getElem (by omega))
    have hdepthb : (Loc.element b i).depth vars blocks = some k := m.depth_array ha hk b hb
    obtain ⟨s1, hassign, m1, hkeeps⟩ := m.assignSlot hy hdest hx hdepthb
    have hkeep : ∀ l, l.depth vars blocks = some (k+1) → s1.read l = s.read l := by
      intro l hl
      refine hkeeps l _ ?_ hl (Nat.le_succ k)
      rintro rfl
      have heq : some (k+1) = some k := hl.symm.trans hdest
      simp at heq
    rw [ObjectState.alloc_write, hxc] at m1
    have hheld' : Held vars blocks extra k s1 t.objects.next := by
      obtain h | ⟨r, e, hr, hread, he⟩ := hheld
      · exact .inl h
      · exact .inr ⟨r, e, hr, by rw [readArray_of_read (hkeep r hr), hread], he⟩
    obtain ⟨s2, hcopy, m2, hkeep2⟩ := ih (i := i+1) m1
      (by rw [readArray_of_read (hkeep a hk), ha]) hheld' (by omega) (by simp; omega)
    have hdrop : (xs.drop i).take (n+1) = c :: (xs.drop (i+1)).take n := by
      obtain ⟨hi, rfl⟩ := List.getElem?_eq_some_iff.mp hc
      rw [List.drop_eq_getElem_cons hi, List.take_succ_cons]
    refine ⟨s2, ?_, ?_, fun l hl => (hkeep2 l hl).trans (hkeep l hl)⟩
    · have hi : i < cs.length := by
        rw [ArrayState.read, hcs] at hx
        exact (List.getElem?_eq_some_iff.mp hx).1
      simp [ArrayState.copyElements, ha, elementAt_some hb hcs hi, hassign, hcopy]
    · rw [hdrop, writeAt]
      exact m2

theorem Mirrors.storeElements {n : Nat} {ys : List (Slot α (Option Nat))} (src : List α)
    (hdest : blocks[t.objects.next]? = some 0) (hheld : t.objects.next ∈ extra)
    (m : Mirrors vars blocks extra none s (t.alloc ys)) (hys : n+src.length ≤ ys.length) :
    ∃ s', ArrayState.storeElements t.objects.next n src s = some s' ∧
      Mirrors vars blocks extra none s' (t.alloc (writeAt ys n (src.map .plain))) ∧
      ∀ l, l.depth vars blocks = some 1 → s'.read l = s.read l := by
  induction src generalizing n s ys with
  | nil => exact ⟨s, rfl, m, fun _ _ => rfl⟩
  | cons v src ih =>
    rw [List.length_cons] at hys
    obtain ⟨zs, hzs⟩ := m.counted.get? (i := t.objects.next) (by simp [hheld])
    obtain ⟨y, hy, _⟩ := m.element (i := n) hzs (by rw [ObjectState.alloc, Arena.get?_push_next])
      (List.getElem?_eq_getElem (by omega))
    obtain ⟨_, w, rfl⟩ | ⟨j, _, hj, _⟩ := m.plain_or_array hy hdest
    · obtain ⟨s1, hstore, m1, hkeeps⟩ := m.store (v := v) hy hdest
      rw [ObjectState.alloc_write] at m1
      obtain ⟨s2, hrest, m2, hkeep2⟩ := ih (n := n+1) m1 (by simp; omega)
      refine ⟨s2, by simp [ArrayState.storeElements, hstore, hrest], m2, fun l hl => ?_⟩
      rw [hkeep2 l hl, hkeeps l 1 ?_ hl (by omega)]
      rintro rfl
      have heq : some 1 = some 0 := hl.symm.trans hdest
      simp at heq
    · omega

variable {p : Loc}

/-- What an operation that makes a new array comes to: the object is there, and the rest is as
it was where a type of depth `k+1` is. -/
def Creates (vars blocks extra : List Nat) (k : Nat) (p : Loc) (s : ArrayState α)
    (t : ObjectState α) (ys : List (Slot α (Option Nat))) (s' : ArrayState α) : Prop :=
  (∃ more, Mirrors vars (blocks ++ more) extra none s'
    ((t.create ys).1.write p (.array (t.create ys).2))) ∧
  ∀ l c, l ≠ p → l.depth vars blocks = some (k+1) → s.read l = some c → s'.read l = some c

theorem Mirrors.assignNil {old : DynArray} (m : Mirrors vars blocks extra none s t)
    (hp : s.readArray p = some old) (hk : p.depth vars blocks = some (k+1)) :
    ∃ s', s.assignNil p = some s' ∧ Creates vars blocks extra k p s t [] s' := by
  obtain ⟨s', hassign, m', hkeeps⟩ := Mirrors.moveAssign (d := .nil) m hp hk (by rintro i ⟨⟩)
    ⟨rfl, fun _ => rfl⟩
  refine ⟨s', hassign, ⟨[], by rw [List.append_nil]; exact m'⟩, fun l c hl hdepth hc => ?_⟩
  rw [hkeeps l _ hl hdepth (le_refl _), hc]

theorem Mirrors.adopt {old : DynArray} (s0 : ArrayState α) {ys : List (Slot α (Option Nat))}
    (m : Mirrors vars (blocks ++ [k]) (t.objects.next :: extra) none s (t.alloc ys))
    (hp : s.readArray p = some old) (hk : p.depth vars blocks = some (k+1))
    (hdest : (blocks ++ [k])[t.objects.next]? = some k) (hys : ys ≠ [])
    (hkeep : ∀ l c, l.depth vars blocks = some (k+1) → s0.read l = some c → s.read l = some c) :
    ∃ s', s.moveAssign p ⟨some t.objects.next, ys.length⟩ = some s' ∧
      Creates vars blocks extra k p s0 t ys s' := by
  have hsized : Sized (t.alloc ys)
      (.array ⟨some t.objects.next, ys.length⟩ : Slot α DynArray) := by
    rw [Sized, ObjectState.contents_alloc_next]
    exact ⟨rfl, fun h => absurd (List.length_eq_zero_iff.mp h) hys⟩
  obtain ⟨s', hassign, m', hkeeps⟩ := Mirrors.moveAssign (d := ⟨some t.objects.next, ys.length⟩) m
    hp (Loc.depth_append hk _) (by rintro i ⟨⟩; exact hdest) hsized
  refine ⟨s', hassign, ⟨[k], ?_⟩, fun l c hl hdepth hc => ?_⟩
  · cases ys with
    | nil => exact absurd rfl hys
    | cons y ys => exact m'
  · rw [hkeeps l _ hl (Loc.depth_append hdepth _) (le_refl _), hkeep l c hdepth hc]

theorem Mirrors.dest (m : Mirrors vars blocks extra none s t) :
    (blocks ++ [k])[t.objects.next]? = some k := by
  rw [m.next, ← m.ranks]
  simp

theorem Mirrors.count_eq {d : DynArray} (m : Mirrors vars blocks extra none s t)
    (hp : s.readArray p = some d) : d.count = (t.contents (.array d.data)).length :=
  (m.sized p _ (by simp) (readArray_eq_some.mp hp)).1

variable [Inhabited α]

theorem writeAt_resized {newLen : Int} (xs : List (Slot α (Option Nat))) {n : Nat}
    (hn : n = min xs.length newLen.toNat) :
    writeAt (List.replicate newLen.toNat (ObjectState.defaultSlot k)) 0 ((xs.drop 0).take n) =
      ObjectState.resized k newLen xs := by
  rw [writeAt_eq (by simp; omega), ObjectState.resized]
  simp only [List.take_zero, List.nil_append, List.drop_zero, List.length_take, List.drop_replicate,
    Nat.zero_add]
  rcases Nat.le_total xs.length newLen.toNat with hle | hle
  · rw [hn, Nat.min_eq_left hle, Nat.min_self, List.take_length, List.take_of_length_le hle]
  · rw [hn, Nat.min_eq_right hle, Nat.min_eq_left hle, Nat.sub_self, Nat.sub_eq_zero_of_le hle]

theorem Mirrors.pSetlength {d : DynArray} (m : Mirrors vars blocks extra none s t)
    (hp : s.readArray p = some d) (hk : p.depth vars blocks = some (k+1)) (newLen : Int) :
    ∃ s', ArrayState.pSetlength k s p newLen = some s' ∧ Creates vars blocks extra k p s t
      (ObjectState.resized k newLen (t.contents (.array d.data))) s' := by
  rw [ArrayState.pSetlength]
  split
  next hle =>
    have hnil : ObjectState.resized k newLen (t.contents (.array d.data)) = [] := by
      have hzero : newLen.toNat = 0 := by omega
      simp [ObjectState.resized, hzero]
    rw [hnil]
    exact m.assignNil hp hk
  next hpos =>
    set xs := t.contents (.array d.data) with hxs
    have hmake : ∀ {l : Loc} {c : Slot α DynArray}, s.read l = some c → (s.make
        (List.replicate newLen.toNat (ArrayState.defaultSlot k))).read l = some c :=
      fun h => ArrayState.read_make h _
    have m1 := m.make k newLen.toNat
    have hp1 := readArray_eq_some.mpr (hmake (readArray_eq_some.mp hp))
    have hn : (min d.count newLen).toNat = min xs.length newLen.toNat := by
      have hcount := m.count_eq hp
      rw [← hxs] at hcount
      omega
    obtain ⟨s2, hcopy, m2, hkeep⟩ := m1.copyElements (Loc.depth_append hk [k]) m.dest (m.data_lt hp)
      hp1 (.inl List.mem_cons_self) (n := (min d.count newLen).toNat) (i := 0)
      (by rw [← hxs, hn]; omega) (by rw [List.length_replicate, hn]; omega)
    rw [← hxs, writeAt_resized xs hn] at m2
    have hlength : (ObjectState.resized k newLen xs).length = newLen.toNat := by
      simp only [ObjectState.resized, List.length_append, List.length_take, List.length_replicate]
      omega
    have hp2 : s2.readArray p = some d := by
      rw [readArray_of_read (hkeep p (Loc.depth_append hk _)), hp1]
    obtain ⟨s3, hassign, h3⟩ := m2.adopt s hp2 hk m.dest
      (by intro hnil; rw [hnil] at hlength; simp at hlength; omega)
      (fun l c hl hc => by rw [hkeep l (Loc.depth_append hl _)]; exact hmake hc)
    refine ⟨s3, ?_, h3⟩
    rw [hlength, Int.toNat_of_nonneg (by omega)] at hassign
    rw [m.next] at hcopy hassign
    simpa [hp1, hcopy, ArrayState.moveAssign] using hassign

theorem Mirrors.assignFixed {d : DynArray} (m : Mirrors vars blocks extra none s t)
    (hp : s.readArray p = some d) (hk : p.depth vars blocks = some 1) {src : List α}
    (hsrc : IntType.int.Holds src.length) :
    ∃ s', s.assignFixed p src = some s' ∧ Creates vars blocks extra 0 p s t (src.map .plain) s' := by
  rw [ArrayState.assignFixed]
  split
  next hnil =>
    obtain rfl := List.length_eq_zero_iff.mp hnil
    exact m.assignNil hp hk
  next hne =>
    have hmake : ∀ {l : Loc} {c : Slot α DynArray}, s.read l = some c → (s.make
        (List.replicate src.length (ArrayState.defaultSlot 0))).read l = some c :=
      fun h => ArrayState.read_make h _
    have m1 := m.make 0 src.length
    have hp1 := readArray_eq_some.mpr (hmake (readArray_eq_some.mp hp))
    obtain ⟨s2, hstore, m2, hkeep⟩ := m1.storeElements src (n := 0) m.dest
      List.mem_cons_self (by simp)
    rw [writeAt_eq (by simp)] at m2
    simp only [List.take_zero, List.nil_append, List.length_map, List.drop_replicate, Nat.zero_add,
      Nat.sub_self, List.replicate_zero, List.append_nil] at m2
    have hp2 : s2.readArray p = some d := by
      rw [readArray_of_read (hkeep p (Loc.depth_append hk _)), hp1]
    obtain ⟨s3, hassign, h3⟩ := m2.adopt s hp2 hk m.dest
      (by simpa using hne) (fun l c hl hc => by rw [hkeep l (Loc.depth_append hl _)]; exact hmake hc)
    refine ⟨s3, ?_, h3⟩
    rw [List.length_map] at hassign
    rw [m.next] at hstore hassign
    rw [IntType.reduce_of_holds hsrc]
    simpa [hstore, ArrayState.moveAssign] using hassign

end
/-! `p_copy` and its local variable. -/
section
variable {vars blocks extra : List Nat} {s : ArrayState α} {t : ObjectState α} {k : Nat}

def ObjectState.declare (t : ObjectState α) : ObjectState α :=
  { t with vars := t.vars ++ [.array none] }

def ObjectState.leave (t : ObjectState α) : ObjectState α := { t with vars := t.vars.dropLast }

theorem ObjectState.contents_of_objects {t' : ObjectState α} (ht : t'.objects = t.objects)
    (data : Option Nat) : t'.contents (.array data) = t.contents (.array data) := by
  cases data with
  | none => rfl
  | some b => rw [ObjectState.contents, ObjectState.contents, ht]

theorem Sized.of_objects {t' : ObjectState α} {c : Slot α DynArray} (h : Sized t c)
    (ht : t'.objects = t.objects) : Sized t' c := by
  cases c with
  | plain v => trivial
  | array d => rwa [Sized, ObjectState.contents_of_objects ht]

theorem ObjectState.create_of_ne_nil {xs : List (Slot α (Option Nat))} (h : xs ≠ []) :
    t.create xs = (t.alloc xs, some t.objects.next) := by
  cases xs with
  | nil => exact absurd rfl h
  | cons x xs => rfl

theorem Mirrors.vars_length {but : Option Loc} (m : Mirrors vars blocks extra but s t) :
    s.vars.length = t.vars.length := by
  rw [m.erased, List.length_map]

theorem slotRefs_concat (xs : List (Slot α DynArray)) (c : Slot α DynArray) :
    slotRefs (xs ++ [c]) = c.refs ++ slotRefs xs := by
  simp [slotRefs]

theorem ArrayState.read_declare {l : Loc} {c : Slot α DynArray} (h : s.read l = some c) :
    s.declare.read l = some c := by
  cases l with
  | var x => exact (List.getElem?_append_left (List.getElem?_eq_some_iff.mp h).1).trans h
  | element b i => exact h

theorem Loc.depth_concat {l : Loc} {j : Nat} (h : l.depth vars blocks = some j) (i : Nat) :
    l.depth (vars ++ [i]) blocks = some j := by
  cases l with
  | var x => exact (List.getElem?_append_left (List.getElem?_eq_some_iff.mp h).1).trans h
  | element b i => exact h

theorem Mirrors.declare (m : Mirrors vars blocks extra none s t) (k : Nat) :
    Mirrors (vars ++ [k+1]) blocks extra none s.declare t.declare := by
  have hread : ∀ l c, s.declare.read l = some c →
      s.read l = some c ∨ (c = .array .nil ∧ l = .var s.vars.length) := by
    intro l c hc
    cases l with
    | element b i => exact .inl hc
    | var x =>
      rw [ArrayState.read, ArrayState.declare, List.getElem?_append] at hc
      split at hc
      · exact .inl hc
      next hx =>
        obtain ⟨hlt, hc⟩ := List.getElem?_eq_some_iff.mp hc
        rw [List.length_singleton] at hlt
        rw [List.getElem_singleton] at hc
        exact .inr ⟨hc.symm, congrArg Loc.var (by omega)⟩
  refine ⟨?_, m.ranks, m.next, ?_, m.objects, ?_, ?_, ?_⟩
  · simp [ArrayState.declare, m.length]
  · simp [ArrayState.declare, ObjectState.declare, m.erased, Slot.erase, DynArray.nil]
  · have hsame : slotRefs s.declare.vars = slotRefs s.vars := slotRefs_concat _ _
    rw [hsame]
    exact m.counted
  · intro l c hc
    obtain hc | ⟨rfl, rfl⟩ := hread l c hc
    · obtain ⟨j, hj, htyped⟩ := m.typed l c hc
      exact ⟨j, Loc.depth_concat hj _, htyped⟩
    · refine ⟨k+1, ?_, by rintro i ⟨⟩⟩
      simp [Loc.depth, m.length]
  · intro l c hne hc
    obtain hc | ⟨rfl, rfl⟩ := hread l c hc
    · exact (m.sized l c hne hc).of_objects rfl
    · exact ⟨rfl, fun _ => rfl⟩

theorem Mirrors.leave {c : Slot α DynArray} {j : Nat}
    (m : Mirrors (vars ++ [j]) blocks extra none s t) (hr : s.read (.var vars.length) = some c) :
    Mirrors vars blocks (c.refs ++ extra) none s.leave t.leave := by
  have hlength : s.vars.length = vars.length+1 := by simpa using m.length
  have hvars : s.vars = s.vars.dropLast ++ [c] := by
    have hne : s.vars ≠ [] := by
      intro h
      simp [h] at hlength
    have hlast : s.vars.getLast hne = c := by
      rw [List.getLast_eq_getElem]
      obtain ⟨hlt, hget⟩ := List.getElem?_eq_some_iff.mp hr
      simpa [hlength] using hget
    rw [← hlast, List.dropLast_append_getLast hne]
  have hread : ∀ l c', s.leave.read l = some c' → s.read l = some c' ∧
      ∀ i, l.depth (vars ++ [j]) blocks = some i → l.depth vars blocks = some i := by
    intro l c' hc
    cases l with
    | element b i => exact ⟨hc, fun _ h => h⟩
    | var x =>
      have hx : x < vars.length := by
        have := (List.getElem?_eq_some_iff.mp hc).1
        simp only [ArrayState.leave, List.length_dropLast] at this
        omega
      refine ⟨?_, fun i h => ?_⟩
      · rw [ArrayState.read, hvars, List.getElem?_append_left (by simp; omega)]
        exact hc
      · rwa [Loc.depth, List.getElem?_append_left hx] at h
  refine ⟨by simp [ArrayState.leave, hlength], m.ranks, m.next, ?_, m.objects, ?_, ?_, ?_⟩
  · simp [ArrayState.leave, ObjectState.leave, m.erased, List.map_dropLast]
  · refine SharedHeap.counted_perm m.counted ?_
    rw [ArrayState.leave]
    nth_rewrite 1 [hvars]
    rw [slotRefs_concat]
    refine List.perm_iff_count.mpr fun i => ?_
    simp only [List.count_append]
    omega
  · intro l c' hc
    obtain ⟨hc, hdepth⟩ := hread l c' hc
    obtain ⟨i, hi, htyped⟩ := m.typed l c' hc
    exact ⟨i, hdepth i hi, htyped⟩
  · intro l c' hne hc
    exact (m.sized l c' hne (hread l c' hc).1).of_objects rfl

theorem Mirrors.array_var {x : Nat} {data : Option Nat} (m : Mirrors vars blocks extra none s t)
    (h : t.read (.var x) = some (.array data)) :
    ∃ e, s.readArray (.var x) = some e ∧ e.data = data := by
  rw [ObjectState.read, m.erased, List.getElem?_map] at h
  obtain ⟨c, hc, herase⟩ := Option.map_eq_some_iff.mp h
  cases c with
  | plain v => cases herase
  | array e =>
    cases herase
    exact ⟨e, readArray_eq_some.mpr hc, rfl⟩

variable [Inhabited α]

theorem resized_all (xs : List (Slot α (Option Nat))) :
    ObjectState.resized k xs.length xs = xs := by
  simp [ObjectState.resized]

theorem resized_nil (newLen : Int) :
    ObjectState.resized k newLen ([] : List (Slot α (Option Nat))) =
      List.replicate newLen.toNat (ObjectState.defaultSlot k) := by
  simp [ObjectState.resized]

theorem Mirrors.declareFull (m : Mirrors vars blocks [] none s t) {n : Int} (hn : 0 < n) :
    ∃ s' e more, ArrayState.pSetlength k s.declare (.var s.vars.length) n = some s' ∧
      Mirrors (vars ++ [k+1]) (blocks ++ more) [] none s'
        (({ t with vars := t.vars ++ [.array (some t.objects.next)] } : ObjectState α).alloc
          (List.replicate n.toNat (ObjectState.defaultSlot k))) ∧
      s'.readArray (.var s.vars.length) = some e ∧ e.data = some t.objects.next ∧
      ∀ l c, l ≠ .var s.vars.length → l.depth vars blocks = some (k+1) → s.read l = some c →
        s'.read l = some c := by
  have hr : s.declare.readArray (.var s.vars.length) = some .nil := by
    rw [readArray_eq_some]
    simp [ArrayState.read, ArrayState.declare]
  have hdepth : (Loc.var s.vars.length).depth (vars ++ [k+1]) blocks = some (k+1) := by
    simp [Loc.depth, m.length]
  obtain ⟨s', hset, ⟨more, m'⟩, hkeep⟩ := (m.declare k).pSetlength hr hdepth n
  have hempty : t.declare.contents (.array DynArray.nil.data) = [] := rfl
  have hne : List.replicate n.toNat (ObjectState.defaultSlot k : Slot α (Option Nat)) ≠ [] := by
    simp
    omega
  rw [hempty, resized_nil, ObjectState.create_of_ne_nil hne] at m'
  have hvars : (t.declare.alloc (List.replicate n.toNat (ObjectState.defaultSlot k))).write
      (.var s.vars.length) (.array (some t.objects.next)) =
      ({ t with vars := t.vars ++ [.array (some t.objects.next)] } : ObjectState α).alloc
        (List.replicate n.toNat (ObjectState.defaultSlot k)) := by
    simp [ObjectState.write, ObjectState.declare, ObjectState.alloc, m.vars_length]
  replace m' : Mirrors (vars ++ [k+1]) (blocks ++ more) [] none s' _ := hvars ▸ m'
  have hread : (({ t with vars := t.vars ++ [.array (some t.objects.next)] } : ObjectState α).alloc
      (List.replicate n.toNat (ObjectState.defaultSlot k))).read (.var s.vars.length) =
      some (.array (some t.objects.next)) := by
    rw [ObjectState.read, ObjectState.alloc, m.vars_length]
    simp
  obtain ⟨e, he, hdata⟩ := m'.array_var hread
  exact ⟨s', e, more, hset, m', he, hdata, fun l c hl hk hc =>
    hkeep l c hl (Loc.depth_concat hk _) (ArrayState.read_declare hc)⟩

theorem Mirrors.pCopy {q : Loc} {d : DynArray} (m : Mirrors vars blocks [] none s t)
    (hq : s.readArray q = some d) (hk : q.depth vars blocks = some (k+1)) :
    ∃ s' e more, ArrayState.pCopy k s q = some (s', e) ∧
      Mirrors vars (blocks ++ more) e.data.toList none s' (t.create (t.contents (.array d.data))).1 ∧
      e.data = (t.create (t.contents (.array d.data))).2 ∧
      Sized (t.create (t.contents (.array d.data))).1 (.array e : Slot α DynArray) ∧
      ∀ i ∈ e.data, (blocks ++ more)[i]? = some k := by
  have hcount := m.count_eq hq
  set xs := t.contents (.array d.data) with hxs
  set r := Loc.var s.vars.length with hr
  have hq1 : s.declare.readArray q = some d :=
    readArray_eq_some.mpr (ArrayState.read_declare (readArray_eq_some.mp hq))
  by_cases hnil : xs = []
  · have hdone : d.count ≤ 0 ∨ d.data = none := .inl (by simp [hcount, hnil])
    have hr1 : s.declare.readArray r = some .nil := by
      rw [readArray_eq_some]
      simp [hr, ArrayState.read, ArrayState.declare]
    have hleave : s.declare.leave = s := by simp [ArrayState.declare, ArrayState.leave]
    refine ⟨s, .nil, [], ?_, ?_, by rw [hnil]; rfl, ?_, by rintro i ⟨⟩⟩
    · simp [ArrayState.pCopy, hq1, hdone, ← hr, hr1, hleave]
    · rw [hnil, List.append_nil]
      exact m
    · exact ⟨by rw [hnil]; rfl, fun _ => rfl⟩
  · have hpos : 0 < xs.length := List.length_pos_iff.mpr hnil
    have hmore : ¬(d.count ≤ 0 ∨ d.data = none) := by
      rintro (h | h)
      · omega
      · exact hnil (by rw [hxs, h]; rfl)
    have hqr : q ≠ r := by
      rintro rfl
      rw [readArray_eq_some, hr, ArrayState.read] at hq
      simp at hq
    -- `r` gets elements of the default, and then those of the source.
    obtain ⟨s2, e, more, hset, m2, hr2, he, hkeep2⟩ := m.declareFull (k := k) (n := d.count)
      (by omega)
    rw [← hr] at hset hr2
    have hrdepth : r.depth (vars ++ [k+1]) (blocks ++ more) = some (k+1) := by
      simp [hr, Loc.depth, m.length]
    have hk' : q.depth (vars ++ [k+1]) (blocks ++ more) = some (k+1) :=
      Loc.depth_append (Loc.depth_concat hk _) _
    have hq2 : s2.readArray q = some d :=
      readArray_eq_some.mpr (hkeep2 q _ hqr hk (readArray_eq_some.mp hq))
    set t1 : ObjectState α := { t with vars := t.vars ++ [.array (some t.objects.next)] } with ht1
    have hcontents : t1.contents (.array d.data) = xs := ObjectState.contents_of_objects rfl _
    obtain ⟨s3, hcopy, m3, hkeep3⟩ := m2.copyElements (t := t1) hk'
      (m2.depth_array hr2 hrdepth t.objects.next he) (m.data_lt hq)
      hq2 (.inr ⟨r, e, hrdepth, hr2, he⟩) (n := d.count.toNat) (i := 0)
      (by rw [hcontents]; omega) (by simp)
    rw [hcontents, writeAt_resized xs (by omega), hcount, resized_all] at m3
    have hr3 : s3.read r = some (.array e) := by
      rw [hkeep3 r hrdepth, readArray_eq_some.mp hr2]
    have hfinal : (t1.alloc xs).leave = t.alloc xs := by
      simp [ht1, ObjectState.leave, ObjectState.alloc]
    rw [ObjectState.create_of_ne_nil hnil]
    refine ⟨s3.leave, e, more, ?_, ?_, he, ?_, ?_⟩
    · have hr3' := readArray_eq_some.mpr hr3
      replace hcopy : ArrayState.copyElements t.objects.next q d.count.toNat 0 s2 = some s3 := hcopy
      simp only [ArrayState.pCopy, ← hr, hq1, hset, hr2, he, hcopy, hr3', hmore, Option.bind_eq_bind,
        Option.bind_some, if_false, Option.pure_def]
    · have m4 := m3.leave (by rw [← m.length]; exact hr3)
      rw [hfinal] at m4
      simpa [Slot.refs] using m4
    · exact (m3.sized r _ (by simp) hr3).of_objects rfl
    · intro i hi
      exact m3.depth_array (readArray_eq_some.mpr hr3) hrdepth i hi

end
end Tp2cc.Rt
