import Tp2cc.Runtime.DynArrayLaw

set_option autoImplicit false

namespace Tp2cc.Rt
open Machine

variable {α : Type} {vars blocks extra : List Nat} {s : ArrayState α} {t : ObjectState α}

/-! Places. -/
section

theorem Mirrors.elementAt {l : Loc} {d : DynArray} {k : Nat} (m : Mirrors vars blocks extra none s t)
    (hl : s.readArray l = some d) (hk : l.depth vars blocks = some (k+1)) (i : Int) :
    s.elementAt d i = t.elementAt (.array d.data) i ∧ ∀ l', s.elementAt d i = some l' →
      (∃ c, s.read l' = some c) ∧ l'.depth vars blocks = some k := by
  cases hd : d.data with
  | none => simp [ArrayState.elementAt, ObjectState.elementAt, hd]
  | some b =>
    obtain ⟨xs, hxs⟩ := m.block hl hd
    have hcontents : t.contents (.array (some b)) = xs.map Slot.erase := by
      rw [ObjectState.contents, m.objects b xs hxs]
      rfl
    constructor
    · simp [ArrayState.elementAt, ObjectState.elementAt, hd, hxs, hcontents]
    · intro l' hl'
      simp only [ArrayState.elementAt, hd, hxs, Option.bind_eq_bind, Option.bind_some,
        Option.ite_none_right_eq_some, Option.some.injEq] at hl'
      obtain ⟨⟨_, hi⟩, rfl⟩ := hl'
      have hlt : i.toNat < xs.length := by omega
      exact ⟨⟨xs[i.toNat], by rw [ArrayState.read, hxs]; exact List.getElem?_eq_getElem hlt⟩,
        m.depth_array hl hk b hd⟩

theorem Mirrors.locate (m : Mirrors vars blocks extra none s t) (path : List Int) {l : Loc}
    {c : Slot α DynArray} {k : Nat} (hl : s.read l = some c) (hk : l.depth vars blocks = some k) :
    s.locate path l = t.locate path l ∧ ∀ l', s.locate path l = some l' →
      (∃ c, s.read l' = some c) ∧ path.length ≤ k ∧ l'.depth vars blocks = some (k-path.length) := by
  induction path generalizing l c k with
  | nil =>
    refine ⟨rfl, ?_⟩
    rintro l' ⟨⟩
    exact ⟨⟨c, hl⟩, Nat.zero_le k, hk⟩
  | cons i path ih =>
    obtain ⟨_, v, rfl⟩ | ⟨j, d, rfl, rfl⟩ := m.plain_or_array hl hk
    · simp [ArrayState.locate, ObjectState.locate, ArrayState.readArray, hl, m.read hl, Slot.erase,
        ObjectState.elementAt]
    · have hd := readArray_eq_some.mpr hl
      obtain ⟨hsame, hat⟩ := m.elementAt hd hk i
      simp only [ArrayState.locate, ObjectState.locate, hd, m.read hl, Slot.erase, ← hsame,
        Option.bind_eq_bind, Option.bind_some]
      cases hi : s.elementAt d i with
      | none => simp
      | some l1 =>
        obtain ⟨⟨c1, hc1⟩, hk1⟩ := hat l1 hi
        obtain ⟨heq, hrest⟩ := ih hc1 hk1
        refine ⟨by simpa using heq, fun l' hl' => ?_⟩
        obtain ⟨hread, hle, hdepth⟩ := hrest l' hl'
        rw [List.length_cons]
        exact ⟨hread, by omega, by rw [hdepth]; congr 1; omega⟩

theorem Mirrors.place (m : Mirrors vars blocks extra none s t) (p : Place) :
    s.place p = t.place p ∧ ∀ l, s.place p = some l →
      (∃ c, s.read l = some c) ∧ l.depth vars blocks = p.depth vars := by
  rw [ArrayState.place, ObjectState.place, ← m.vars_length]
  split
  next hlt =>
    have hroot : p.root < vars.length := m.length ▸ hlt
    have hvar : vars[p.root]? = some vars[p.root] := List.getElem?_eq_getElem hroot
    obtain ⟨heq, hrest⟩ := m.locate p.path (l := .var p.root)
      (List.getElem?_eq_getElem hlt) hvar
    refine ⟨heq, fun l hl => ?_⟩
    obtain ⟨hread, hle, hdepth⟩ := hrest l hl
    refine ⟨hread, ?_⟩
    rw [hdepth, Place.depth, hvar]
    simp [hle]
  · simp

/-- A place of a type of depth `k` has a slot of this type, or neither program has it. -/
theorem Mirrors.place_cases (m : Mirrors vars blocks extra none s t) {p : Place} {k : Nat}
    (hp : p.depth vars = some k) : (s.place p = none ∧ t.place p = none) ∨
      ∃ l c, s.place p = some l ∧ t.place p = some l ∧ s.read l = some c ∧
        l.depth vars blocks = some k := by
  obtain ⟨heq, hrest⟩ := m.place p
  cases h : s.place p with
  | none => exact .inl ⟨rfl, by rw [← heq, h]⟩
  | some l =>
    obtain ⟨⟨c, hc⟩, hk⟩ := hrest l h
    exact .inr ⟨l, c, rfl, by rw [← heq, h], hc, hk.trans hp⟩

theorem Mirrors.array_cases (m : Mirrors vars blocks extra none s t) {p : Place} {k : Nat}
    (hp : p.depth vars = some (k+1)) : (s.place p = none ∧ t.place p = none) ∨
      ∃ l d, s.place p = some l ∧ t.place p = some l ∧ s.readArray l = some d ∧
        t.read l = some (.array d.data) ∧ l.depth vars blocks = some (k+1) := by
  obtain h | ⟨l, c, hs, ht, hc, hk⟩ := m.place_cases hp
  · exact .inl h
  · obtain ⟨hzero, _⟩ | ⟨_, d, _, rfl⟩ := m.plain_or_array hc hk
    · simp at hzero
    · exact .inr ⟨l, d, hs, ht, readArray_eq_some.mpr hc, m.read hc, hk⟩

theorem Mirrors.look (m : Mirrors vars blocks extra none s t) : s.look = t.look := by
  funext p
  obtain ⟨heq, hrest⟩ := m.place p
  rw [ArrayState.look, ObjectState.look, ← heq]
  cases h : s.place p with
  | none => rfl
  | some l =>
    obtain ⟨⟨c, hc⟩, _⟩ := hrest l h
    cases c with
    | plain v => simp [hc, m.read hc, Slot.erase]
    | array d => simp [hc, m.read hc, Slot.erase, m.count_eq (readArray_eq_some.mpr hc)]

end

/-! Statements and programs. -/
section

def BothRun (vars : List Nat) (s' : Option (ArrayState α)) (t' : Option (ObjectState α)) : Prop :=
  (s' = none ∧ t' = none) ∨
    ∃ s t blocks, s' = some s ∧ t' = some t ∧ Mirrors vars blocks [] none s t

theorem Creates.bothRun {k : Nat} {p : Loc} {ys : List (Slot α (Option Nat))} {s' : ArrayState α}
    {o : Option (ArrayState α)} (ho : o = some s') (h : Creates vars blocks [] k p s t ys s') :
    BothRun vars o (some ((t.create ys).1.write p (.array (t.create ys).2))) := by
  obtain ⟨⟨more, m⟩, _⟩ := h
  exact .inr ⟨s', _, _, ho, rfl, m⟩

variable [Inhabited α]

theorem Mirrors.exec (m : Mirrors vars blocks [] none s t) {st : ArrayStmt α} (hst : st.Typed vars) :
    BothRun vars (s.exec st) (t.exec st) := by
  cases st with
  | store p v =>
    obtain ⟨hs, ht⟩ | ⟨l, c, hs, ht, hc, hk⟩ := m.place_cases hst
    · exact .inl ⟨by simp [ArrayState.exec, hs], by simp [ObjectState.exec, ht]⟩
    · obtain ⟨_, w, rfl⟩ | ⟨j, _, hj, _⟩ := m.plain_or_array hc hk
      · obtain ⟨s', hstore, m', _⟩ := m.store (v := v) hc hk
        exact .inr ⟨s', _, _, by simp [ArrayState.exec, hs, hstore], by simp [ObjectState.exec, ht], m'⟩
      · simp at hj
  | assign p q =>
    obtain ⟨hp, hq⟩ := hst
    obtain ⟨k, hp⟩ := Option.isSome_iff_exists.mp hp
    rw [hp] at hq
    obtain ⟨hs, ht⟩ | ⟨l, c, hs, ht, hc, hk⟩ := m.place_cases hq
    · exact .inl ⟨by simp [ArrayState.exec, hs], by simp [ObjectState.exec, ht]⟩
    obtain ⟨hs', ht'⟩ | ⟨l', c', hs', ht', hc', hk'⟩ := m.place_cases hp
    · exact .inl ⟨by simp [ArrayState.exec, hs, hs'], by simp [ObjectState.exec, ht, ht']⟩
    obtain ⟨s', hassign, m', _⟩ := m.assignSlot hc' hk' hc hk
    exact .inr ⟨s', _, _, by simp [ArrayState.exec, hs, hs', hassign],
      by simp [ObjectState.exec, ht, ht', m.read hc], m'⟩
  | assignNil depth p =>
    obtain ⟨hs, ht⟩ | ⟨l, d, hs, ht, hd, _, hk⟩ := m.array_cases hst
    · exact .inl ⟨by simp [ArrayState.exec, hs], by simp [ObjectState.exec, ht]⟩
    · obtain ⟨s', hassign, h⟩ := m.assignNil hd hk
      have hexec : t.exec (.assignNil depth p) =
          some ((t.create []).1.write l (.array (t.create []).2)) := by
        simp [ObjectState.exec, ht, ObjectState.create]
      rw [hexec]
      exact h.bothRun (by simp [ArrayState.exec, hs, hassign])
  | assignFixed p src =>
    obtain ⟨hp, hsrc⟩ := hst
    obtain ⟨hs, ht⟩ | ⟨l, d, hs, ht, hd, _, hk⟩ := m.array_cases hp
    · exact .inl ⟨by simp [ArrayState.exec, hs], by simp [ObjectState.exec, ht]⟩
    · obtain ⟨s', hassign, h⟩ := m.assignFixed hd hk hsrc
      have hexec : t.exec (.assignFixed p src) = some ((t.create (src.map .plain)).1.write l
          (.array (t.create (src.map .plain)).2)) := by
        simp [ObjectState.exec, ht]
      rw [hexec]
      exact h.bothRun (by simp [ArrayState.exec, hs, hassign])
  | setLength depth p newLen =>
    obtain ⟨hs, ht⟩ | ⟨l, d, hs, ht, hd, hread, hk⟩ := m.array_cases hst
    · exact .inl ⟨by simp [ArrayState.exec, hs], by simp [ObjectState.exec, ht]⟩
    · obtain ⟨s', hset, h⟩ := m.pSetlength hd hk newLen
      have hexec : t.exec (.setLength depth p newLen) = some
          ((t.create (ObjectState.resized depth newLen (t.contents (.array d.data)))).1.write l
            (.array (t.create (ObjectState.resized depth newLen (t.contents (.array d.data)))).2)) := by
        simp [ObjectState.exec, ht, hread]
      rw [hexec]
      exact h.bothRun (by simp [ArrayState.exec, hs, hset])
  | copy depth p q =>
    obtain ⟨hp, hq⟩ := hst
    obtain ⟨hs, ht⟩ | ⟨l, d, hs, ht, hd, hread, hk⟩ := m.array_cases hq
    · exact .inl ⟨by simp [ArrayState.exec, hs], by simp [ObjectState.exec, ht]⟩
    obtain ⟨s1, e, more, hcopy, m1, hdata, hsized, htyped⟩ := m.pCopy hd hk
    obtain ⟨hs', ht'⟩ | ⟨l', d', hs', ht', hd', _, hk'⟩ := m1.array_cases hp
    · exact .inl ⟨by simp [ArrayState.exec, hs, hcopy, hs'],
        by simp [ObjectState.exec, ht, hread, ht']⟩
    rw [← List.append_nil e.data.toList] at m1
    obtain ⟨s2, hassign, m2, _⟩ := m1.moveAssign hd' hk' htyped hsized
    rw [hdata] at m2
    exact .inr ⟨s2, _, _, by simp [ArrayState.exec, hs, hcopy, hs', hassign],
      by simp [ObjectState.exec, ht, hread, ht'], m2⟩

theorem Mirrors.run {prog : List (ArrayStmt α)} (h : ∀ st ∈ prog, st.Typed vars)
    (m : Mirrors vars blocks [] none s t) : BothRun vars (s.run prog) (t.run prog) := by
  induction prog generalizing blocks s t with
  | nil => exact .inr ⟨s, t, blocks, rfl, rfl, m⟩
  | cons st prog ih =>
    rw [ArrayState.run, ObjectState.run, List.foldlM_cons, List.foldlM_cons]
    obtain ⟨hs, ht⟩ | ⟨s1, t1, blocks1, hs, ht, m1⟩ := m.exec (h st List.mem_cons_self)
    · exact .inl ⟨by rw [hs]; rfl, by rw [ht]; rfl⟩
    · rw [hs, ht]
      exact ih (fun st' hst' => h st' (List.mem_cons_of_mem _ hst')) m1

theorem mirrors_start (vars : List Nat) :
    Mirrors vars [] [] none (ArrayState.start vars : ArrayState α) (ObjectState.start vars) := by
  have hread : ∀ l c, (ArrayState.start vars : ArrayState α).read l = some c →
      ∃ x k, l = .var x ∧ vars[x]? = some k ∧ c = ArrayState.defaultSlot k := by
    intro l c hc
    cases l with
    | element b i => simp [ArrayState.read, ArrayState.start, SharedHeap.get?, SharedHeap.block?,
        SharedHeap.empty] at hc
    | var x =>
      rw [ArrayState.read, ArrayState.start, List.getElem?_map] at hc
      obtain ⟨k, hk, rfl⟩ := Option.map_eq_some_iff.mp hc
      exact ⟨x, k, rfl, hk, rfl⟩
  refine ⟨by simp [ArrayState.start], rfl, rfl, ?_, ?_, ?_, ?_, ?_⟩
  · simp [ObjectState.start, ArrayState.start, defaultSlot_erase]
  · intro i xs hxs
    simp [ArrayState.start, SharedHeap.get?, SharedHeap.block?, SharedHeap.empty] at hxs
  · have hnone : slotRefs (ArrayState.start vars : ArrayState α).vars = [] := by
      simp [slotRefs, ArrayState.start, defaultSlot_refs]
    rw [hnone]
    exact SharedHeap.counted_empty
  · intro l c hc
    obtain ⟨x, k, rfl, hk, rfl⟩ := hread l c hc
    exact ⟨k, hk, defaultSlot_depth k⟩
  · intro l c _ hc
    obtain ⟨x, k, rfl, hk, rfl⟩ := hread l c hc
    exact defaultSlot_sized k _

/-- Whatever the program, one with reference counts stops where the one with objects stops, and
else all places read the same: no array is freed that can still be read, and no count is wrong. -/
theorem ArrayState.run_look (vars : List Nat) (prog : List (ArrayStmt α))
    (h : ∀ st ∈ prog, st.Typed vars) : ((start vars).run prog).map look =
      ((ObjectState.start vars).run prog).map ObjectState.look := by
  obtain ⟨hs, ht⟩ | ⟨s, t, blocks, hs, ht, m⟩ := (mirrors_start vars).run h
  · rw [hs, ht]
    rfl
  · rw [hs, ht, Option.map_some, Option.map_some, m.look]

def nested : List (ArrayStmt Int) :=
  [.setLength 1 ⟨0, []⟩ 2, .setLength 0 ⟨0, [1]⟩ 1, .copy 1 ⟨1, []⟩ ⟨0, []⟩, .store ⟨1, [1, 0]⟩ 7,
    .assignNil 1 ⟨0, []⟩, .assign ⟨0, []⟩ ⟨1, []⟩]

theorem nested_typed : ∀ st ∈ nested, st.Typed [2, 2] := by
  simp [nested, ArrayStmt.Typed, Place.depth]

theorem ArrayState.run_look_nested : ((start [2, 2]).run nested).map look =
    ((ObjectState.start [2, 2]).run nested).map ObjectState.look :=
  run_look [2, 2] nested nested_typed

/-- When the variables are gone, every block of the program is freed. -/
theorem ArrayState.run_finish (vars : List Nat) (prog : List (ArrayStmt α))
    (h : ∀ st ∈ prog, st.Typed vars) {s' : ArrayState α} (hrun : (start vars).run prog = some s') :
    ∃ heap, s'.finish = some heap ∧ ∀ i, heap.get? i = none := by
  obtain ⟨hs, _⟩ | ⟨s, t, blocks, hs, _, m⟩ := (mirrors_start vars).run h
  · rw [hs] at hrun
    cases hrun
  · obtain rfl : s = s' := Option.some.inj (hs.symm.trans hrun)
    have hcounted := m.counted
    rw [List.nil_append, ← List.append_nil (slotRefs _)] at hcounted
    obtain ⟨heap, hfinish, hempty⟩ := hcounted.releaseAll
    exact ⟨heap, hfinish, hempty.nothing_left ((SharedHeap.releaseAll_trims hfinish).ranked m.ranked)⟩

theorem ArrayState.run_finish_nested : ∃ s', (start [2, 2]).run nested = some s' ∧
    ∃ heap, s'.finish = some heap ∧ ∀ i, heap.get? i = none :=
  ⟨_, rfl, run_finish [2, 2] nested nested_typed rfl⟩

end
end Tp2cc.Rt
