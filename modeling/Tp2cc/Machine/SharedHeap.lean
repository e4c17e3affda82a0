import Mathlib.Data.List.Perm.Basic
import Mathlib.Data.Finset.Card
import Mathlib.Data.Finset.Range
import Mathlib.Data.Finset.Filter
import Mathlib.Data.Finset.Max

/-! Reference-counted blocks, whose contents hold references themselves. A release by the
last owner frees the block and releases what it held. -/
set_option autoImplicit false

namespace Machine
universe u

structure SharedBlock (β : Type u) where
  value : β
  owners : Nat

/-- The blocks by their addresses. An address is not used again. -/
structure SharedHeap (β : Type u) where
  blocks : List (Option (SharedBlock β))

namespace SharedHeap
variable {β : Type u}

def empty : SharedHeap β := ⟨[]⟩

def next (h : SharedHeap β) : Nat := h.blocks.length

def block? (h : SharedHeap β) (i : Nat) : Option (SharedBlock β) := h.blocks[i]?.join

def get? (h : SharedHeap β) (i : Nat) : Option β := (h.block? i).map (·.value)

def write (h : SharedHeap β) (i : Nat) (b : Option (SharedBlock β)) : SharedHeap β :=
  ⟨h.blocks.set i b⟩

def make (h : SharedHeap β) (v : β) : SharedHeap β := ⟨h.blocks ++ [some ⟨v, 1⟩]⟩

def put (h : SharedHeap β) (i : Nat) (v : β) : Option (SharedHeap β) :=
  (h.block? i).map fun b => h.write i (some { b with value := v })

def retain (h : SharedHeap β) (i : Nat) : Option (SharedHeap β) :=
  (h.block? i).map fun b => h.write i (some { b with owners := b.owners+1 })

variable (refs : β → List Nat)

/-- Each block that is freed takes one of `fuel`. -/
def releaseWith : Nat → SharedHeap β → Nat → Option (SharedHeap β)
  | 0, _, _ => none
  | fuel+1, h, i =>
    match h.block? i with
    | none => none
    | some b =>
      if 1 < b.owners then some (h.write i (some { b with owners := b.owners-1 }))
      else (refs b.value).foldlM (fun h j => releaseWith fuel h j) (h.write i none)

def release (h : SharedHeap β) (i : Nat) : Option (SharedHeap β) := releaseWith refs h.next h i

def releaseAll (h : SharedHeap β) (work : List Nat) : Option (SharedHeap β) :=
  work.foldlM (fun h i => release refs h i) h

def blockRefs : Option (SharedBlock β) → List Nat
  | none => []
  | some b => refs b.value

def held (h : SharedHeap β) : List Nat := h.blocks.flatMap (blockRefs refs)

def owners (h : SharedHeap β) (i : Nat) : Nat := (h.block? i).elim 0 (·.owners)

/-- The owners of every block are the references to it: those of `roots` and those in the
blocks. -/
structure Counted (roots : List Nat) (h : SharedHeap β) : Prop where
  owners : ∀ i, h.owners i = (roots ++ h.held refs).count i
  positive : ∀ i b, h.block? i = some b → 0 < b.owners

structure Trimmed (h' h : SharedHeap β) : Prop where
  next : h'.next = h.next
  get? : ∀ i v, h'.get? i = some v → h.get? i = some v

def Ranked (rank : Nat → Nat) (h : SharedHeap β) : Prop :=
  ∀ i v, h.get? i = some v → ∀ j ∈ refs v, rank j < rank i

def live (h : SharedHeap β) : Finset Nat := (Finset.range h.next).filter fun i => (h.get? i).isSome

variable {refs}

/-! What is at an address after an operation. -/
section

theorem lt_next {h : SharedHeap β} {i : Nat} {b : SharedBlock β} (hb : h.block? i = some b) :
    i < h.next := by
  rw [block?, Option.join_eq_some_iff] at hb
  exact (List.getElem?_eq_some_iff.mp hb).1

theorem get?_eq_some {h : SharedHeap β} {i : Nat} {v : β} :
    h.get? i = some v ↔ ∃ b, h.block? i = some b ∧ b.value = v := Option.map_eq_some_iff

theorem lt_next_of_get? {h : SharedHeap β} {i : Nat} {v : β} (hv : h.get? i = some v) :
    i < h.next := by
  obtain ⟨b, hb, _⟩ := get?_eq_some.mp hv
  exact lt_next hb

@[simp] theorem next_write (h : SharedHeap β) (i : Nat) (b : Option (SharedBlock β)) :
    (h.write i b).next = h.next := List.length_set

theorem block?_write {h : SharedHeap β} {i : Nat} (hi : i < h.next) (b : Option (SharedBlock β))
    (j : Nat) : (h.write i b).block? j = if j = i then b else h.block? j := by
  have hlt : i < h.blocks.length := hi
  rw [block?, write, List.getElem?_set]
  by_cases hij : i = j
  · rw [if_pos hij, if_pos hij.symm, if_pos hlt, Option.join_some]
  · rw [if_neg hij, if_neg (Ne.symm hij)]
    rfl

theorem get?_write {h : SharedHeap β} {i : Nat} (hi : i < h.next) (b : Option (SharedBlock β))
    (j : Nat) : (h.write i b).get? j = if j = i then b.map (·.value) else h.get? j := by
  rw [get?, block?_write hi]
  split <;> rfl

theorem owners_write {h : SharedHeap β} {i : Nat} (hi : i < h.next) (b : Option (SharedBlock β))
    (j : Nat) : (h.write i b).owners j = if j = i then b.elim 0 (·.owners) else h.owners j := by
  rw [owners, block?_write hi]
  split <;> rfl

@[simp] theorem next_make (h : SharedHeap β) (v : β) : (h.make v).next = h.next+1 :=
  List.length_append

theorem block?_make (h : SharedHeap β) (v : β) (j : Nat) :
    (h.make v).block? j = if j = h.next then some ⟨v, 1⟩ else h.block? j := by
  rw [block?, make, List.getElem?_append]
  split_ifs with h1 h2 h2
  · rw [next] at h2
    omega
  · rfl
  · rw [h2, next]
    simp
  · rw [next] at h2
    rw [block?, List.getElem?_eq_none (by simp; omega), List.getElem?_eq_none (by omega)]

theorem get?_make (h : SharedHeap β) (v : β) (j : Nat) :
    (h.make v).get? j = if j = h.next then some v else h.get? j := by
  rw [get?, block?_make]
  split <;> rfl

theorem held_write {h : SharedHeap β} {i : Nat} (hi : i < h.next) (b : Option (SharedBlock β)) :
    ((h.write i b).held refs ++ blockRefs refs (h.block? i)).Perm
      (h.held refs ++ blockRefs refs b) := by
  have hold : blockRefs refs (h.block? i) = blockRefs refs h.blocks[i] := by
    rw [block?, List.getElem?_eq_getElem hi, Option.join_some]
  have hnew := (List.set_perm_cons_eraseIdx hi b).flatMap_right (blockRefs refs)
  have hrest := (List.getElem_cons_eraseIdx_perm hi).flatMap_right (blockRefs refs)
  rw [List.flatMap_cons] at hnew hrest
  rw [hold]
  refine (hnew.append_right _).trans (.trans ?_ (hrest.append_right _))
  grind

end

/-! The counts after an operation. -/
section

theorem counted_perm {roots roots' : List Nat} {h : SharedHeap β} (hc : Counted refs roots h)
    (hp : roots.Perm roots') : Counted refs roots' h where
  owners i := by rw [hc.owners, (hp.append_right _).count_eq]
  positive := hc.positive

theorem counted_empty : Counted refs [] (empty : SharedHeap β) where
  owners _ := rfl
  positive _ _ h := by simp [block?, empty] at h

theorem Counted.block? {roots : List Nat} {h : SharedHeap β} (hc : Counted refs roots h) {i : Nat}
    (hi : i ∈ roots ++ h.held refs) : ∃ b, h.block? i = some b := by
  have hpos := List.count_pos_iff.mpr hi
  rw [← hc.owners, SharedHeap.owners] at hpos
  cases hb : h.block? i with
  | none => simp [hb] at hpos
  | some b => exact ⟨b, rfl⟩

theorem Counted.get? {roots : List Nat} {h : SharedHeap β} (hc : Counted refs roots h) {i : Nat}
    (hi : i ∈ roots ++ h.held refs) : ∃ v, h.get? i = some v := by
  obtain ⟨b, hb⟩ := hc.block? hi
  exact ⟨b.value, get?_eq_some.mpr ⟨b, hb, rfl⟩⟩

theorem mem_held {h : SharedHeap β} {i j : Nat} {v : β} (hv : h.get? i = some v) (hj : j ∈ refs v) :
    j ∈ h.held refs := by
  obtain ⟨b, hb, rfl⟩ := get?_eq_some.mp hv
  rw [SharedHeap.block?, Option.join_eq_some_iff] at hb
  exact List.mem_flatMap.mpr ⟨some b, List.mem_of_getElem? hb, hj⟩

theorem exists_of_mem_held {h : SharedHeap β} {j : Nat} (hj : j ∈ h.held refs) :
    ∃ i v, h.get? i = some v ∧ j ∈ refs v := by
  obtain ⟨o, ho, hj⟩ := List.mem_flatMap.mp hj
  cases o with
  | none => simp [blockRefs] at hj
  | some b =>
    obtain ⟨i, hi⟩ := List.mem_iff_getElem?.mp ho
    exact ⟨i, b.value, get?_eq_some.mpr ⟨b, by rw [SharedHeap.block?, hi]; rfl, rfl⟩, hj⟩

/-- The counts after one block is another: its references leave the roots, and those of the
block before are roots. -/
theorem Counted.write {roots roots' : List Nat} {h : SharedHeap β} (hc : Counted refs roots h)
    {i : Nat} (hi : i < h.next) {b : Option (SharedBlock β)} (hpos : ∀ c, b = some c → 0 < c.owners)
    (hroots : ∀ j, (roots'.count j + (blockRefs refs b).count j) + h.owners j =
      (roots.count j + (blockRefs refs (h.block? i)).count j) + (h.write i b).owners j) :
    Counted refs roots' (h.write i b) where
  owners j := by
    have hheld := (held_write hi b : ((h.write i b).held refs ++ _).Perm _).count_eq j
    have hold := hc.owners j
    have := hroots j
    simp only [List.count_append] at hheld hold ⊢
    omega
  positive j c hj := by
    rw [block?_write hi] at hj
    split at hj
    · exact hpos c hj
    · exact hc.positive j c hj

theorem Counted.make {roots : List Nat} {h : SharedHeap β} {v : β}
    (hc : Counted refs (refs v ++ roots) h) : Counted refs (h.next :: roots) (h.make v) where
  owners j := by
    have hheld : (h.make v).held refs = h.held refs ++ refs v := by
      simp [held, SharedHeap.make, blockRefs]
    have hold := hc.owners j
    have hnew : h.owners h.next = 0 := by
      simp [SharedHeap.owners, SharedHeap.block?, next]
    rw [hheld, SharedHeap.owners, block?_make]
    simp only [List.count_append, List.count_cons, beq_iff_eq, List.cons_append] at hold ⊢
    by_cases hj : j = h.next
    · subst hj
      simp
      omega
    · rw [if_neg hj, if_neg (Ne.symm hj)]
      rw [SharedHeap.owners] at hold
      omega
  positive j c hj := by
    rw [block?_make] at hj
    split at hj
    · cases hj
      simp
    · exact hc.positive j c hj

theorem get?_retain {h h' : SharedHeap β} {i : Nat} (hr : h.retain i = some h') (j : Nat) :
    h'.get? j = h.get? j := by
  obtain ⟨b, hb, rfl⟩ := Option.map_eq_some_iff.mp hr
  rw [get?_write (lt_next hb)]
  split
  next hj => rw [hj, get?, hb]; rfl
  · rfl

theorem next_retain {h h' : SharedHeap β} {i : Nat} (hr : h.retain i = some h') :
    h'.next = h.next := by
  obtain ⟨b, _, rfl⟩ := Option.map_eq_some_iff.mp hr
  exact next_write h i _

theorem Counted.retain {roots : List Nat} {h : SharedHeap β} (hc : Counted refs roots h) {i : Nat}
    (hi : i ∈ roots ++ h.held refs) : ∃ h', h.retain i = some h' ∧ Counted refs (i :: roots) h' := by
  obtain ⟨b, hb⟩ := hc.block? hi
  refine ⟨_, by rw [SharedHeap.retain, hb]; rfl, hc.write (lt_next hb) ?_ fun j => ?_⟩
  · rintro c ⟨⟩
    simp
  · rw [owners_write (lt_next hb), hb]
    simp only [List.count_cons, beq_iff_eq, blockRefs, SharedHeap.owners]
    by_cases hj : j = i
    · subst hj
      simp [hb]
      omega
    · simp [hj, Ne.symm hj]

theorem put_eq_some {h h' : SharedHeap β} {i : Nat} {v : β} :
    h.put i v = some h' ↔ ∃ b, h.block? i = some b ∧ h.write i (some { b with value := v }) = h' :=
  Option.map_eq_some_iff

theorem get?_put {h h' : SharedHeap β} {i : Nat} {v : β} (hp : h.put i v = some h') (j : Nat) :
    h'.get? j = if j = i then some v else h.get? j := by
  obtain ⟨b, hb, rfl⟩ := put_eq_some.mp hp
  exact get?_write (lt_next hb) _ j

theorem next_put {h h' : SharedHeap β} {i : Nat} {v : β} (hp : h.put i v = some h') :
    h'.next = h.next := by
  obtain ⟨b, _, rfl⟩ := put_eq_some.mp hp
  exact next_write h i _

theorem Counted.put {roots came gone : List Nat} {h : SharedHeap β} {i : Nat} {v w : β}
    (hc : Counted refs (came ++ roots) h) (hw : h.get? i = some w)
    (hrefs : (refs v ++ gone).Perm (refs w ++ came)) :
    ∃ h', h.put i v = some h' ∧ Counted refs (gone ++ roots) h' := by
  obtain ⟨b, hb, rfl⟩ := get?_eq_some.mp hw
  refine ⟨_, put_eq_some.mpr ⟨b, hb, rfl⟩, hc.write (lt_next hb) ?_ fun j => ?_⟩
  · rintro c ⟨⟩
    exact hc.positive i b hb
  · have hcount := hrefs.count_eq j
    rw [owners_write (lt_next hb), hb]
    simp only [List.count_append, blockRefs, SharedHeap.owners] at hcount ⊢
    by_cases hj : j = i
    · subst hj
      simp [hb]
      omega
    · simp [hj]
      omega

end

/-! Releases: blocks are freed, and nothing else changes what a block holds. -/
section

theorem Trimmed.refl (h : SharedHeap β) : Trimmed h h := ⟨rfl, fun _ _ hv => hv⟩

theorem Trimmed.trans {h1 h2 h3 : SharedHeap β} (h : Trimmed h1 h2) (k : Trimmed h2 h3) :
    Trimmed h1 h3 := ⟨h.next.trans k.next, fun i v hv => k.get? i v (h.get? i v hv)⟩

theorem Trimmed.fold {f : SharedHeap β → Nat → Option (SharedHeap β)}
    (hf : ∀ h h' j, f h j = some h' → Trimmed h' h) {work : List Nat} {h h' : SharedHeap β}
    (hr : work.foldlM f h = some h') : Trimmed h' h := by
  induction work generalizing h with
  | nil =>
    cases hr
    exact .refl _
  | cons j work ih =>
    rw [List.foldlM_cons] at hr
    obtain ⟨h1, hj, hr⟩ := Option.bind_eq_some_iff.mp hr
    exact (ih hr).trans (hf h h1 j hj)

theorem trimmed_write_none {h : SharedHeap β} {i : Nat} (hi : i < h.next) :
    Trimmed (h.write i none) h where
  next := next_write h i none
  get? j v hj := by
    rw [get?_write hi] at hj
    split at hj
    · simp at hj
    · exact hj

theorem releaseWith_trims {fuel : Nat} {h h' : SharedHeap β} {i : Nat}
    (hr : releaseWith refs fuel h i = some h') : Trimmed h' h := by
  induction fuel generalizing h h' i with
  | zero => simp [releaseWith] at hr
  | succ fuel ih =>
    rw [releaseWith] at hr
    cases hb : h.block? i with
    | none => simp [hb] at hr
    | some b =>
      simp only [hb] at hr
      split at hr
      · cases hr
        refine ⟨next_write h i _, fun j v hj => ?_⟩
        rw [get?_write (lt_next hb)] at hj
        split at hj
        next hji => rw [hji, get?, hb]; exact hj
        · exact hj
      · exact (Trimmed.fold (fun _ _ _ => ih) hr).trans (trimmed_write_none (lt_next hb))

theorem release_trims {h h' : SharedHeap β} {i : Nat} (hr : release refs h i = some h') :
    Trimmed h' h := releaseWith_trims hr

theorem Trimmed.ranked {h h' : SharedHeap β} (ht : Trimmed h' h) {rank : Nat → Nat}
    (hr : Ranked refs rank h) : Ranked refs rank h' :=
  fun i v hv => hr i v (ht.get? i v hv)

theorem releaseWith_keeps {rank : Nat → Nat} {fuel : Nat} {h h' : SharedHeap β} {i k : Nat}
    (hranked : Ranked refs rank h) (hik : rank i < rank k)
    (hr : releaseWith refs fuel h i = some h') : h'.get? k = h.get? k := by
  induction fuel generalizing h h' i with
  | zero => simp [releaseWith] at hr
  | succ fuel ih =>
    rw [releaseWith] at hr
    cases hb : h.block? i with
    | none => simp [hb] at hr
    | some b =>
      have hki : k ≠ i := by
        rintro rfl
        exact Nat.lt_irrefl _ hik
      have hwrite : ∀ c, (h.write i c).get? k = h.get? k := fun c => by
        rw [get?_write (lt_next hb), if_neg hki]
      simp only [hb] at hr
      split at hr
      · cases hr
        exact hwrite _
      · have hwork : ∀ j ∈ refs b.value, rank j < rank k := fun j hj =>
          Nat.lt_trans (hranked i b.value (get?_eq_some.mpr ⟨b, hb, rfl⟩) j hj) hik
        rw [← hwrite none]
        replace hranked := (trimmed_write_none (lt_next hb)).ranked hranked
        generalize refs b.value = work at hr hwork
        generalize h.write i none = h1 at hr hranked
        clear hwrite hb
        induction work generalizing h1 with
        | nil => cases hr; rfl
        | cons j work ihWork =>
          rw [List.foldlM_cons] at hr
          obtain ⟨h2, hj, hr⟩ := Option.bind_eq_some_iff.mp hr
          rw [ihWork (fun j hj => hwork j (List.mem_cons_of_mem _ hj)) h2 hr
            ((releaseWith_trims hj).ranked hranked)]
          exact ih hranked (hwork j List.mem_cons_self) hj

theorem release_keeps {rank : Nat → Nat} {h h' : SharedHeap β} {i k : Nat}
    (hranked : Ranked refs rank h) (hik : rank i < rank k) (hr : release refs h i = some h') :
    h'.get? k = h.get? k := releaseWith_keeps hranked hik hr

theorem mem_live {h : SharedHeap β} {i : Nat} : i ∈ h.live ↔ (h.get? i).isSome := by
  rw [live, Finset.mem_filter, Finset.mem_range, and_iff_right_iff_imp]
  intro hi
  obtain ⟨v, hv⟩ := Option.isSome_iff_exists.mp hi
  exact lt_next_of_get? hv

theorem Trimmed.live {h h' : SharedHeap β} (ht : Trimmed h' h) : h'.live ⊆ h.live := by
  intro i hi
  obtain ⟨v, hv⟩ := Option.isSome_iff_exists.mp (mem_live.mp hi)
  exact mem_live.mpr (by rw [ht.get? i v hv]; rfl)

theorem live_write_none {h : SharedHeap β} {i : Nat} {b : SharedBlock β} (hb : h.block? i = some b) :
    (h.write i none).live.card < h.live.card := by
  refine Finset.card_lt_card ⟨(trimmed_write_none (lt_next hb)).live, fun hsub => ?_⟩
  have hi : i ∈ h.live := mem_live.mpr (by simp [get?, hb])
  have := mem_live.mp (hsub hi)
  simp [get?_write (lt_next hb)] at this

theorem live_le_next (h : SharedHeap β) : h.live.card ≤ h.next := by
  have := Finset.card_filter_le (Finset.range h.next) fun i => (h.get? i).isSome
  rwa [Finset.card_range] at this

/-- A root is released: what the other references lead to is not freed. -/
theorem Counted.releaseWith {fuel : Nat} {h : SharedHeap β} {i : Nat} {roots : List Nat}
    (hc : Counted refs (i :: roots) h) (hfuel : h.live.card ≤ fuel) :
    ∃ h', releaseWith refs fuel h i = some h' ∧ Counted refs roots h' := by
  induction fuel generalizing h i roots with
  | zero =>
    obtain ⟨v, hv⟩ := hc.get? (i := i) (by simp)
    have := Finset.card_pos.mpr ⟨i, mem_live.mpr (by rw [hv]; rfl)⟩
    omega
  | succ fuel ih =>
    obtain ⟨b, hb⟩ := hc.block? (i := i) (by simp)
    rw [SharedHeap.releaseWith]
    simp only [hb]
    have hpos := hc.positive i b hb
    split
    next hshared =>
      refine ⟨_, rfl, hc.write (lt_next hb) ?_ fun j => ?_⟩
      · rintro c ⟨⟩
        simp
        omega
      · rw [owners_write (lt_next hb), hb]
        simp only [List.count_cons, beq_iff_eq, blockRefs, SharedHeap.owners]
        by_cases hj : j = i
        · subst hj
          simp [hb]
          omega
        · simp [hj, Ne.symm hj]
    next hlast =>
      have hfreed : Counted refs (refs b.value ++ roots) (h.write i none) := by
        refine hc.write (lt_next hb) (by simp) fun j => ?_
        rw [owners_write (lt_next hb), hb]
        simp only [List.count_cons, List.count_append, beq_iff_eq, blockRefs, SharedHeap.owners]
        by_cases hj : j = i
        · subst hj
          simp [hb]
          omega
        · simp [hj, Ne.symm hj]
          omega
      have hless : (h.write i none).live.card ≤ fuel := by
        have := live_write_none hb
        omega
      generalize refs b.value = work at hfreed
      generalize h.write i none = h1 at hfreed hless
      clear hc hb hpos
      induction work generalizing h1 with
      | nil => exact ⟨h1, rfl, hfreed⟩
      | cons j work ihWork =>
        obtain ⟨h2, hj, hc2⟩ := ih hfreed hless
        have hle := Finset.card_le_card (releaseWith_trims hj).live
        rw [List.foldlM_cons, hj]
        exact ihWork h2 hc2 (by omega)

theorem Counted.release {h : SharedHeap β} {i : Nat} {roots : List Nat}
    (hc : Counted refs (i :: roots) h) :
    ∃ h', release refs h i = some h' ∧ Counted refs roots h' := hc.releaseWith (live_le_next h)

theorem Counted.releaseAll {h : SharedHeap β} {work roots : List Nat}
    (hc : Counted refs (work ++ roots) h) :
    ∃ h', releaseAll refs h work = some h' ∧ Counted refs roots h' := by
  induction work generalizing h with
  | nil => exact ⟨h, rfl, hc⟩
  | cons i work ih =>
    obtain ⟨h1, hi, hc1⟩ := hc.release
    obtain ⟨h2, hr, hc2⟩ := ih hc1
    exact ⟨h2, by rw [SharedHeap.releaseAll, List.foldlM_cons, hi]; exact hr, hc2⟩

theorem releaseAll_trims {h h' : SharedHeap β} {work : List Nat}
    (hr : releaseAll refs h work = some h') : Trimmed h' h := Trimmed.fold (fun _ _ _ => release_trims) hr

/-- Without roots nothing is left, for references lead to lower ranks: no block keeps
another one that keeps it. -/
theorem Counted.nothing_left {h : SharedHeap β} (hc : Counted refs [] h) {rank : Nat → Nat}
    (hranked : Ranked refs rank h) (i : Nat) : h.get? i = none := by
  by_contra hi
  obtain ⟨top, htop, hmax⟩ := Finset.exists_max_image h.live rank
    ⟨i, mem_live.mpr (Option.isSome_iff_ne_none.mpr hi)⟩
  obtain ⟨v, hv⟩ := Option.isSome_iff_exists.mp (mem_live.mp htop)
  obtain ⟨b, hb, _⟩ := get?_eq_some.mp hv
  have howned : 0 < List.count top (h.held refs) := by
    have howners := hc.owners top
    rw [SharedHeap.owners, hb, List.nil_append] at howners
    exact howners ▸ hc.positive top b hb
  obtain ⟨j, w, hw, hj⟩ := exists_of_mem_held (List.count_pos_iff.mp howned)
  have := hmax j (mem_live.mpr (by rw [hw]; rfl))
  have := hranked j w hw top hj
  omega

end

end SharedHeap
end Machine
