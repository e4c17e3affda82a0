import Tp2cc.Analysis.EnumFolder

/-! The cache holds the ordinals that the declarations give, in whatever order they are asked for. -/
set_option autoImplicit false

namespace Tp2cc.Enums
open Machine Rt LeastTable

theorem explicitOrdinal_eq {info : ConstIntExprInfo} (h : info.Faithful) :
    explicitOrdinal info = if info.denote > 2^63-1 then none else some info.denote := by
  have hvalue := int64_bounds info.value
  have hbits := uint64_bounds info.bits
  unfold ConstIntExprInfo.Faithful at h
  unfold explicitOrdinal
  unfold ConstIntExprInfo.denote at h ⊢
  cases hu : info.isUnsigned with
  | false => simpa using hvalue.2
  | true =>
    simp only [hu, if_true, true_and] at h ⊢
    split
    · rfl
    · rw [h, reduce_int64_of_small (by omega) (by omega)]

theorem implicitOrdinal_eq_some {previous : Option Int} {v : Int} :
    implicitOrdinal previous = some v ↔ previous = none ∧ v = 0 ∨
      ∃ p, previous = some p ∧ cxxInt64.Holds (p+1) ∧ v = p+1 := by
  cases previous with
  | none => simp [implicitOrdinal, eq_comm]
  | some p =>
    simp only [implicitOrdinal]
    split <;> rename_i h <;> simp [h, eq_comm]

section
variable {ε : Type} {decls : EnumDecls ε}

/-! What is declared where the ordinals stand in a table. -/

theorem MemberValue.ordinal_explicit (t : Member ε → Option Int) (previous : Option Int)
    (e : MemberExpr ε) : (explicit e).ordinal t previous =
      (e.fold.eval t).bind fun info => explicitOrdinal info.val := rfl

theorem MemberValue.ordinal_implicit (t : Member ε → Option Int) (previous : Option Int) :
    (implicit : MemberValue ε).ordinal t previous = implicitOrdinal previous := rfl

theorem MemberValue.ordinal_growing {t t' : Member ε → Option Int} (h : Below t t')
    {value : MemberValue ε} {previous : Option Int} {v : Int}
    (hv : value.ordinal t previous = some v) : value.ordinal t' previous = some v := by
  cases value with
  | implicit => exact hv
  | explicit e =>
    obtain ⟨info, hinfo, hv⟩ := Option.bind_eq_some_iff.mp hv
    exact Option.bind_eq_some_iff.mpr ⟨info, e.keeps t t' h info hinfo, hv⟩

theorem previousOrdinal_succ {t : Member ε → Option Int} {e : ε} {index : Nat}
    {previous : Option Int} (h : previousOrdinal t (e, index+1) = some previous) :
    ∃ p, t (e, index) = some p ∧ previous = some p := by
  obtain ⟨p, hp, rfl⟩ := Option.map_eq_some_iff.mp h
  exact ⟨p, hp, rfl⟩

theorem previousOrdinal_of_succ {t : Member ε → Option Int} {e : ε} {index : Nat} {p : Int}
    (h : t (e, index) = some p) : previousOrdinal t (e, index+1) = some (some p) :=
  congrArg (Option.map some) h

theorem previousOrdinal_growing {t t' : Member ε → Option Int} (h : Below t t') {m : Member ε}
    {previous : Option Int} (hp : previousOrdinal t m = some previous) :
    previousOrdinal t' m = some previous := by
  obtain ⟨e, index⟩ := m
  cases index with
  | zero => exact hp
  | succ index =>
    obtain ⟨p, hfound, rfl⟩ := previousOrdinal_succ hp
    exact previousOrdinal_of_succ (h (e, index) p hfound)

theorem exists_previousOrdinal {t : Member ε → Option Int} {e : ε} {index : Nat}
    (h : ∀ j, j < index → t (e, j) ≠ none) :
    ∃ previous, previousOrdinal t (e, index) = some previous := by
  cases index with
  | zero => exact ⟨none, rfl⟩
  | succ index =>
    obtain ⟨p, hp⟩ := Option.ne_none_iff_exists'.mp (h index (Nat.lt_succ_self index))
    exact ⟨some p, previousOrdinal_of_succ hp⟩

theorem declaredOrdinal_eq_some {t : Member ε → Option Int} {m : Member ε} {v : Int} :
    declaredOrdinal decls t m = some v ↔ ∃ value previous, (decls m.1)[m.2]? = some value ∧
      previousOrdinal t m = some previous ∧ value.ordinal t previous = some v := by
  simp only [declaredOrdinal, Option.bind_eq_bind, Option.bind_eq_some_iff]
  constructor
  · rintro ⟨value, hvalue, previous, hprevious, hv⟩
    exact ⟨value, previous, hvalue, hprevious, hv⟩
  · rintro ⟨value, previous, hvalue, hprevious, hv⟩
    exact ⟨value, hvalue, previous, hprevious, hv⟩

theorem declaredOrdinal_of {t : Member ε → Option Int} {m : Member ε} {value : MemberValue ε}
    {previous : Option Int} (hvalue : (decls m.1)[m.2]? = some value)
    (hprevious : previousOrdinal t m = some previous) :
    declaredOrdinal decls t m = value.ordinal t previous := by
  simp only [declaredOrdinal, hvalue, hprevious, Option.bind_eq_bind, Option.bind_some]

theorem declaredOrdinal_growing : Growing (declaredOrdinal decls) := by
  intro t t' h m v hv
  obtain ⟨value, previous, hvalue, hprevious, hv⟩ := declaredOrdinal_eq_some.mp hv
  exact declaredOrdinal_eq_some.mpr
    ⟨value, previous, hvalue, previousOrdinal_growing h hprevious, value.ordinal_growing h hv⟩

/-- The table stops in each enum at the first member without an ordinal. -/
structure Prefixed (decls : EnumDecls ε) (t : Member ε → Option Int) : Prop where
  inside : ∀ m v, t m = some v → m.2 < (decls m.1).length
  behind : ∀ e index v, t (e, index+1) = some v → ∃ p, t (e, index) = some p

namespace Prefixed
variable {t : Member ε → Option Int}

theorem declared (m : Member ε) (v : Int) (h : declaredOrdinal decls t m = some v) :
    m.2 < (decls m.1).length := by
  obtain ⟨value, -, hvalue, -, -⟩ := declaredOrdinal_eq_some.mp h
  exact (List.getElem?_eq_some_iff.mp hvalue).1

theorem declared_behind {e : ε} {index : Nat} {v : Int}
    (h : declaredOrdinal decls t (e, index+1) = some v) : ∃ p, t (e, index) = some p := by
  obtain ⟨value, previous, -, hprevious, -⟩ := declaredOrdinal_eq_some.mp h
  obtain ⟨p, hp, -⟩ := previousOrdinal_succ hprevious
  exact ⟨p, hp⟩

theorem le (h : Prefixed decls t) {e : ε} {i j : Nat} (hij : i ≤ j) {v : Int}
    (hv : t (e, j) = some v) : ∃ w, t (e, i) = some w := by
  induction hij generalizing v with
  | refl => exact ⟨v, hv⟩
  | step _ ih =>
    obtain ⟨p, hp⟩ := h.behind e _ v hv
    exact ih hp

theorem none_le (h : Prefixed decls t) {e : ε} {i j : Nat} (hij : i ≤ j)
    (hi : t (e, i) = none) : t (e, j) = none := by
  cases hj : t (e, j) with
  | none => rfl
  | some v =>
    obtain ⟨w, hw⟩ := h.le hij hj
    rw [hi] at hw
    cases hw

theorem none_outside (h : Prefixed decls t) {e : ε} {j : Nat} (hj : (decls e).length ≤ j) :
    t (e, j) = none := by
  cases hv : t (e, j) with
  | none => rfl
  | some v => exact absurd (h.inside (e, j) v hv) (by simpa using hj)

theorem closure (h : Prefixed decls t) (shut : Member ε → Prop) [DecidablePred shut] :
    Prefixed decls (closure shut t (declaredOrdinal decls)) := by
  have hrule : Growing (declaredOrdinal decls) := declaredOrdinal_growing
  constructor
  · intro m v hv
    cases ht : t m with
    | some w => exact h.inside m w ht
    | none =>
      by_cases hm : shut m
      · rw [closure_shut hrule hm, ht] at hv
        cases hv
      · rw [closure_rule hrule ht hm] at hv
        exact declared m v hv
  · intro e index v hv
    cases ht : t (e, index+1) with
    | some w =>
      obtain ⟨p, hp⟩ := h.behind e index w ht
      exact ⟨p, closure_given hrule (e, index) p hp⟩
    | none =>
      by_cases hm : shut (e, index+1)
      · rw [closure_shut hrule hm, ht] at hv
        cases hv
      · rw [closure_rule hrule ht hm] at hv
        exact declared_behind hv

end Prefixed

/-- Folding the value of a member shuts its enum, up to the members that have an ordinal, and finds
what would be found with the enum open. -/
theorem declaredOrdinal_shut {shut shut' : Member ε → Prop} [DecidablePred shut]
    [DecidablePred shut'] {t : Member ε → Option Int} (ht : Prefixed decls t) {e : ε}
    (hshut : ∀ m, shut' m ↔ m.1 = e ∨ shut m) (he : ∀ index, ¬ shut (e, index)) {index : Nat}
    (hfilled : ∀ j, j < index → ∃ v, t (e, j) = some v) (hindex : t (e, index) = none) :
    declaredOrdinal decls (closure shut' t (declaredOrdinal decls)) (e, index) =
      closure shut t (declaredOrdinal decls) (e, index) := by
  have hrule : Growing (declaredOrdinal decls) := declaredOrdinal_growing
  have hbelow := @closure_mono_shut _ _ shut _ t _ hrule shut' _ fun m hm => (hshut m).mpr (.inr hm)
  have hopen : closure shut t (declaredOrdinal decls) (e, index) =
      declaredOrdinal decls (closure shut t (declaredOrdinal decls)) (e, index) :=
    closure_rule hrule hindex (he index)
  cases hv : declaredOrdinal decls (closure shut' t (declaredOrdinal decls)) (e, index) with
  | some v =>
    rw [hopen]
    exact (hrule _ _ hbelow (e, index) v hv).symm
  | none =>
    -- nothing more is found with the enum open: the first member that would be is this one
    have hsame : Below (closure shut t (declaredOrdinal decls))
        (closure shut' t (declaredOrdinal decls)) := by
      refine closure_below hrule fun m w hw => ?_
      cases hm : t m with
      | some u =>
        rw [around_given hm] at hw
        rw [closure_given hrule m u hm]
        exact hw
      | none =>
        by_cases hs : shut m
        · rw [around_shut hs, hm] at hw
          cases hw
        · rw [around_rule hm hs] at hw
          by_cases hme : m.1 = e
          · obtain ⟨e', i⟩ := m
            obtain rfl : e' = e := hme
            have hlater : ∀ j, index ≤ j →
                closure shut' t (declaredOrdinal decls) (e', j) = none := by
              intro j hj
              rw [closure_shut hrule ((hshut (e', j)).mpr (.inl rfl))]
              exact ht.none_le hj hindex
            obtain hi | rfl | hi := Nat.lt_trichotomy i index
            · obtain ⟨u, hu⟩ := hfilled i hi
              rw [hm] at hu
              cases hu
            · rw [hv] at hw
              cases hw
            · obtain ⟨k, rfl⟩ : ∃ k, i = k+1 := ⟨i-1, by omega⟩
              obtain ⟨u, hu⟩ := Prefixed.declared_behind hw
              rw [hlater k (by omega)] at hu
              cases hu
          · rw [closure_rule hrule hm (by simp [hshut, hme, hs])]
            exact hw
    cases hfound : closure shut t (declaredOrdinal decls) (e, index) with
    | none => rfl
    | some w =>
      have hw := hsame (e, index) w hfound
      rw [closure_shut hrule ((hshut (e, index)).mpr (.inl rfl)), hindex] at hw
      cases hw

theorem NotAscending.grows {t t' : Member ε → Option Int} (h : Below t t') {m : Member ε}
    (hm : NotAscending t m) : NotAscending t' m := by
  obtain ⟨index, p, v, hindex, hp, hv, hvp⟩ := hm
  exact ⟨index, p, v, hindex, h _ p hp, h m v hv, hvp⟩

theorem NotAscending.congr {t t' : Member ε → Option Int} {e : ε} {index : Nat}
    (h : ∀ j, j ≤ index → t (e, j) = t' (e, j)) (hm : NotAscending t (e, index)) :
    NotAscending t' (e, index) := by
  obtain ⟨i, p, v, rfl, hp, hv, hvp⟩ := hm
  refine ⟨i, p, v, rfl, ?_, ?_, hvp⟩
  · rw [← h i (Nat.le_succ i)]
    exact hp
  · rw [← h (i+1) (Nat.le_refl _)]
    exact hv

theorem notAscending_iff {t : Member ε → Option Int} {e : ε} {index : Nat} {previous : Option Int}
    (hprevious : previousOrdinal t (e, index) = some previous) {v : Int}
    (hv : t (e, index) = some v) : NotAscending t (e, index) ↔ previous.any (v ≤ ·) = true := by
  cases index with
  | zero =>
    cases hprevious
    simp [NotAscending]
  | succ index =>
    obtain ⟨p, hp, rfl⟩ := previousOrdinal_succ hprevious
    simp only [NotAscending, Option.any_some, decide_eq_true_eq]
    constructor
    · rintro ⟨i, q, w, hi, hq, hw, hwq⟩
      obtain rfl : index = i := Nat.succ.inj hi
      rw [hp] at hq
      rw [hv] at hw
      cases hq
      cases hw
      exact hwq
    · exact fun hvp => ⟨index, p, v, rfl, hp, hv, hvp⟩

section
variable (s : OrdinalState ε) (m : Member ε) (previous : Option Int) (v : Int)

@[simp] theorem checkAscending_cache : (checkAscending m previous v s).cache = s.cache := by
  rw [checkAscending]
  split <;> rfl

@[simp] theorem checkAscending_evaluating :
    (checkAscending m previous v s).evaluating = s.evaluating := by
  rw [checkAscending]
  split <;> rfl

theorem mem_checkAscending_errors {m' : Member ε} : m' ∈ (checkAscending m previous v s).errors ↔
    m' ∈ s.errors ∨ m' = m ∧ previous.any (v ≤ ·) = true := by
  rw [checkAscending]
  split
  · rename_i h
    simp [OrdinalState.report, h, or_comm]
  · rename_i h
    simp [h]

end

theorem ordinals_eq (decls : EnumDecls ε) :
    declaredOrdinal decls (ordinals decls) = ordinals decls :=
  rule_least declaredOrdinal_growing

theorem ordinals_declared {e : ε} {index : Nat} {v : Int} (h : ordinals decls (e, index) = some v) :
    ∃ value previous, (decls e)[index]? = some value ∧
      previousOrdinal (ordinals decls) (e, index) = some previous ∧
      value.ordinal (ordinals decls) previous = some v := by
  rw [← ordinals_eq] at h
  exact declaredOrdinal_eq_some.mp h

theorem ordinals_int64 {m : Member ε} {v : Int} (h : ordinals decls m = some v) :
    cxxInt64.Holds v := by
  obtain ⟨e, index⟩ := m
  obtain ⟨value, previous, -, -, hv⟩ := ordinals_declared h
  cases value with
  | implicit =>
    obtain ⟨-, rfl⟩ | ⟨p, -, hp, rfl⟩ := implicitOrdinal_eq_some.mp hv
    · decide
    · exact hp
  | explicit x =>
    obtain ⟨info, -, hv⟩ := Option.bind_eq_some_iff.mp hv
    rw [explicitOrdinal] at hv
    split at hv
    · cases hv
    · cases hv
      exact info.val.value.mem

theorem ordinals_explicit {e : ε} {index : Nat} {x : MemberExpr ε}
    (hx : (decls e)[index]? = some (.explicit x)) {v : Int}
    (hv : ordinals decls (e, index) = some v) :
    ∃ info, x.fold.eval (ordinals decls) = some info ∧ info.val.denote = v := by
  obtain ⟨value, previous, hvalue, -, hv⟩ := ordinals_declared hv
  rw [hx] at hvalue
  cases hvalue
  rw [MemberValue.ordinal_explicit, Option.bind_eq_some_iff] at hv
  obtain ⟨info, hinfo, hv⟩ := hv
  rw [explicitOrdinal_eq info.property] at hv
  split at hv
  · cases hv
  · exact ⟨info, hinfo, Option.some.inj hv⟩

theorem ordinals_first {e : ε} (himplicit : (decls e)[0]? = some .implicit) {v : Int}
    (hv : ordinals decls (e, 0) = some v) : v = 0 := by
  obtain ⟨value, previous, hvalue, hprevious, hv⟩ := ordinals_declared hv
  rw [himplicit] at hvalue
  cases hvalue
  cases hprevious
  exact (Option.some.inj hv).symm

theorem ordinals_next {e : ε} {index : Nat} (himplicit : (decls e)[index+1]? = some .implicit)
    {v : Int} (hv : ordinals decls (e, index+1) = some v) :
    ∃ p, ordinals decls (e, index) = some p ∧ v = p+1 := by
  obtain ⟨value, previous, hvalue, hprevious, hv⟩ := ordinals_declared hv
  rw [himplicit] at hvalue
  cases hvalue
  obtain ⟨p, hp, rfl⟩ := previousOrdinal_succ hprevious
  rw [MemberValue.ordinal_implicit] at hv
  obtain ⟨hnone, -⟩ | ⟨q, hq, -, rfl⟩ := implicitOrdinal_eq_some.mp hv
  · cases hnone
  · cases hq
    exact ⟨p, hp, rfl⟩

theorem ordinals_stops {e : ε} {index : Nat} {x : MemberExpr ε}
    (hx : (decls e)[index]? = some (.explicit x)) (hnone : ordinals decls (e, index) = none)
    (hfilled : ∀ j, j < index → ordinals decls (e, j) ≠ none)
    (info : {info : ConstIntExprInfo // info.Faithful})
    (hinfo : x.fold.eval (ordinals decls) = some info) : ¬ cxxInt64.Holds info.val.denote := by
  obtain ⟨previous, hprevious⟩ := exists_previousOrdinal hfilled
  rw [← ordinals_eq, declaredOrdinal_of hx hprevious, MemberValue.ordinal_explicit, hinfo,
    Option.bind_some, explicitOrdinal_eq info.property] at hnone
  split at hnone
  · rename_i hlarge
    exact fun hholds => absurd hholds.2 (not_le.mpr hlarge)
  · cases hnone

theorem ordinals_overflows {e : ε} {index : Nat}
    (himplicit : (decls e)[index]? = some .implicit) (hnone : ordinals decls (e, index) = none)
    (hfilled : ∀ j, j < index → ordinals decls (e, j) ≠ none) :
    ∃ i p, index = i+1 ∧ ordinals decls (e, i) = some p ∧ ¬ cxxInt64.Holds (p+1) := by
  obtain ⟨previous, hprevious⟩ := exists_previousOrdinal hfilled
  rw [← ordinals_eq, declaredOrdinal_of himplicit hprevious, MemberValue.ordinal_implicit] at hnone
  cases index with
  | zero =>
    cases hprevious
    cases hnone
  | succ i =>
    obtain ⟨p, hp, rfl⟩ := previousOrdinal_succ hprevious
    refine ⟨i, p, rfl, hp, fun hholds => ?_⟩
    rw [implicitOrdinal, if_pos hholds] at hnone
    cases hnone

theorem Prefixed.ascending {t : Member ε → Option Int} (ht : Prefixed decls t) {e : ε}
    (h : ∀ index, ¬ NotAscending t (e, index)) {i j : Nat} (hij : i < j) {v w : Int}
    (hv : t (e, i) = some v) (hw : t (e, j) = some w) : v < w := by
  induction hij generalizing w with
  | refl =>
    by_contra hle
    exact h (i+1) ⟨i, v, w, rfl, hv, hw, by omega⟩
  | @step j hij ih =>
    obtain ⟨u, hu⟩ := ht.behind e j w hw
    have hvu : v < u := ih hu
    by_contra hle
    exact h (j+1) ⟨j, u, w, rfl, hu, hw, by omega⟩

end

section
variable {ε : Type} [DecidableEq ε] {decls : EnumDecls ε}

/-- The state between two turns. What is wrong about an enum that is not under way was reported. -/
structure Sound (decls : EnumDecls ε) (s : OrdinalState ε) : Prop where
  prefixed : Prefixed decls s.cache
  wrong : ∀ m ∈ s.errors, NotAscending s.cache m
  reported : ∀ m, NotAscending s.cache m → m.1 ∉ s.evaluating → m ∈ s.errors

/-- What a state comes to in the end, with some enums under way. -/
noncomputable def completion (decls : EnumDecls ε) (G : Finset ε) (t : Member ε → Option Int) :
    Member ε → Option Int :=
  closure (fun m => m.1 ∈ G) t (declaredOrdinal decls)

/-- The state comes from another one, with the same enums under way, and to the same end. -/
structure Within (decls : EnumDecls ε) (b s : OrdinalState ε) : Prop where
  evaluating : s.evaluating = b.evaluating
  ends : completion decls b.evaluating s.cache = completion decls b.evaluating b.cache
  grows : Below b.cache s.cache
  errors : ∀ m ∈ b.errors, m ∈ s.errors
  sound : Sound decls s

theorem Within.refl {s : OrdinalState ε} (h : Sound decls s) : Within decls s s :=
  ⟨rfl, rfl, Below.refl _, fun _ hm => hm, h⟩

theorem Within.trans {b s s' : OrdinalState ε} (h : Within decls b s) (h' : Within decls s s') :
    Within decls b s' := by
  refine ⟨h'.evaluating.trans h.evaluating, ?_, h.grows.trans h'.grows,
    fun m hm => h'.errors m (h.errors m hm), h'.sound⟩
  have hends := h'.ends
  rw [h.evaluating] at hends
  exact hends.trans h.ends

theorem Within.shut {b s : OrdinalState ε} (h : Within decls b s) {m : Member ε}
    (hm : m.1 ∈ b.evaluating) : s.cache m = b.cache m := by
  have hrule : Growing (declaredOrdinal decls) := declaredOrdinal_growing
  have hs := @closure_shut _ _ (fun m : Member ε => m.1 ∈ b.evaluating) _ s.cache _ hrule m hm
  have hb := @closure_shut _ _ (fun m : Member ε => m.1 ∈ b.evaluating) _ b.cache _ hrule m hm
  rw [← hs, ← hb]
  exact congrFun h.ends m

def Evaluates (decls : EnumDecls ε) (evaluate : ε → OrdinalState ε → Option (OrdinalState ε))
    (G : Finset ε) : Prop :=
  ∀ e s, s.evaluating = G → Sound decls s → ∃ s', evaluate e s = some s' ∧ Within decls s s' ∧
    (e ∉ G → ∀ index, s'.cache (e, index) = completion decls G s.cache (e, index))

section
variable {evaluate : ε → OrdinalState ε → Option (OrdinalState ε)} {G : Finset ε}

theorem enumMemberOrdinal_eq (h : Evaluates decls evaluate G) {s : OrdinalState ε}
    (hG : s.evaluating = G) (hs : Sound decls s) (m : Member ε) :
    ∃ s', enumMemberOrdinal decls evaluate m s = some (completion decls G s.cache m, s') ∧
      Within decls s s' := by
  have hrule : Growing (declaredOrdinal decls) := declaredOrdinal_growing
  obtain ⟨e, index⟩ := m
  rw [enumMemberOrdinal]
  split
  · rename_i hout
    have hnone := (hs.prefixed.closure fun m => m.1 ∈ G).none_outside hout
    exact ⟨s, by rw [completion, hnone], .refl hs⟩
  · split
    · rename_i v hv
      have hsome : completion decls G s.cache (e, index) = some v := closure_given hrule _ v hv
      exact ⟨s, by rw [hsome], .refl hs⟩
    · obtain ⟨s', hs', hwithin, hfilled⟩ := h e s hG hs
      refine ⟨s', ?_, hwithin⟩
      have hcache : s'.cache (e, index) = completion decls G s.cache (e, index) := by
        by_cases he : e ∈ G
        · have hshut : completion decls G s.cache (e, index) = s.cache (e, index) :=
            closure_shut hrule he
          rw [hshut, hwithin.shut (by rw [hG]; exact he)]
        · exact hfilled he index
      rw [hs', Option.map_some, hcache]

theorem findOrdinal_eq (h : Evaluates decls evaluate G) {s : OrdinalState ε}
    (hG : s.evaluating = G) (hs : Sound decls s) (value : MemberValue ε) (previous : Option Int) :
    ∃ s', findOrdinal decls evaluate value previous s =
        some (value.ordinal (completion decls G s.cache) previous, s') ∧ Within decls s s' := by
  cases value with
  | implicit => exact ⟨s, rfl, .refl hs⟩
  | explicit e =>
    have hanswer : ∀ m s₁, Within decls s s₁ → ∃ s₂, enumMemberOrdinal decls evaluate m s₁ =
        some (completion decls G s.cache m, s₂) ∧ Within decls s s₂ := by
      intro m s₁ h₁
      obtain ⟨s₂, hask, h₂⟩ := enumMemberOrdinal_eq h (h₁.evaluating.trans hG) h₁.sound m
      have hends := h₁.ends
      rw [hG] at hends
      rw [hends] at hask
      exact ⟨s₂, hask, h₁.trans h₂⟩
    obtain ⟨s', hrun, hs'⟩ := Query.run_eq hanswer e.fold (Within.refl hs)
    refine ⟨s', ?_, hs'⟩
    rw [findOrdinal, hrun]
    rfl

theorem Within.completion_eq {e : ε} {s s' : OrdinalState ε} (h : Within decls s s')
    (hG : s.evaluating = insert e G) :
    completion decls G s'.cache = completion decls G s.cache := by
  have hrule : Growing (declaredOrdinal decls) := declaredOrdinal_growing
  have hends := h.ends
  rw [hG] at hends
  refine closure_congr hrule h.grows fun m v hv => ?_
  have hfound : completion decls (insert e G) s'.cache m = some v := closure_given hrule m v hv
  rw [hends] at hfound
  refine closure_mono_shut hrule (fun m hm => ?_) m v hfound
  exact Finset.mem_insert_of_mem hm

structure Turn (decls : EnumDecls ε) (G : Finset ε) (e : ε) (b : OrdinalState ε) (index : Nat)
    (s : OrdinalState ε) : Prop where
  evaluating : s.evaluating = insert e G
  ends : completion decls G s.cache = completion decls G b.cache
  grows : Below b.cache s.cache
  errors : ∀ m ∈ b.errors, m ∈ s.errors
  sound : Sound decls s
  filled : ∀ j, j < index → ∃ v, s.cache (e, j) = some v
  checked : ∀ j, j < index → NotAscending s.cache (e, j) → (e, j) ∈ s.errors

namespace Turn
variable {e : ε} {b s s' : OrdinalState ε} {index : Nat}

theorem within (h : Turn decls G e b index s) (hs : Within decls s s') :
    Turn decls G e b index s' := by
  have hshut : ∀ j, s'.cache (e, j) = s.cache (e, j) := fun j => by
    apply hs.shut
    rw [h.evaluating]
    exact Finset.mem_insert_self e G
  constructor
  · exact hs.evaluating.trans h.evaluating
  · exact (hs.completion_eq h.evaluating).trans h.ends
  · exact h.grows.trans hs.grows
  · exact fun m hm => hs.errors m (h.errors m hm)
  · exact hs.sound
  · intro j hj
    rw [hshut j]
    exact h.filled j hj
  · intro j hj hwrong
    exact hs.errors _ (h.checked j hj (hwrong.congr fun i _ => hshut i))

theorem store (h : Turn decls G e b index s) (hnone : s.cache (e, index) = none) {v : Int}
    (hv : completion decls G b.cache (e, index) = some v) :
    Turn decls G e b index (s.store (e, index) v) := by
  have hrule : Growing (declaredOrdinal decls) := declaredOrdinal_growing
  have hsame : ∀ m, m ≠ (e, index) → (s.store (e, index) v).cache m = s.cache m :=
    fun m hm => Function.update_of_ne hm _ _
  have hstored : (s.store (e, index) v).cache (e, index) = some v := Function.update_self ..
  have hgrows : Below s.cache (s.store (e, index) v).cache := by
    intro m w hw
    rw [hsame m (by rintro rfl; rw [hnone] at hw; cases hw)]
    exact hw
  have hbefore : ∀ j, j < index → (s.store (e, index) v).cache (e, j) = s.cache (e, j) :=
    fun j hj => hsame (e, j) (by simp; omega)
  rw [← h.ends] at hv
  constructor
  · exact h.evaluating
  · refine (closure_congr hrule hgrows fun m w hw => ?_).trans h.ends
    by_cases hm : m = (e, index)
    · subst hm
      rw [hstored] at hw
      exact hv.trans hw
    · rw [hsame m hm] at hw
      exact closure_given hrule m w hw
  · exact h.grows.trans hgrows
  · exact h.errors
  · constructor
    · constructor
      · intro m w hw
        by_cases hm : m = (e, index)
        · subst hm
          exact (h.sound.prefixed.closure fun m => m.1 ∈ G).inside (e, index) v hv
        · rw [hsame m hm] at hw
          exact h.sound.prefixed.inside m w hw
      · intro e' i w hw
        by_cases hm : (e', i+1) = (e, index)
        · obtain ⟨rfl, rfl⟩ := Prod.mk.inj hm
          obtain ⟨p, hp⟩ := h.filled i (Nat.lt_succ_self i)
          exact ⟨p, hgrows _ p hp⟩
        · rw [hsame _ hm] at hw
          obtain ⟨p, hp⟩ := h.sound.prefixed.behind e' i w hw
          exact ⟨p, hgrows _ p hp⟩
    · exact fun m hm => (h.sound.wrong m hm).grows hgrows
    · intro m hwrong hm
      have hme : m.1 ≠ e := by
        rintro rfl
        exact hm (by rw [show (s.store (m.1, index) v).evaluating = _ from h.evaluating]
                     exact Finset.mem_insert_self ..)
      refine h.sound.reported m (hwrong.congr fun j _ => hsame (m.1, j) ?_) hm
      simp [hme]
  · intro j hj
    rw [hbefore j hj]
    exact h.filled j hj
  · intro j hj hwrong
    exact h.checked j hj (hwrong.congr fun i hi => hbefore i (by omega))

theorem checkAscending (h : Turn decls G e b index s) {previous : Option Int}
    (hprevious : previousOrdinal s.cache (e, index) = some previous) {v : Int}
    (hv : s.cache (e, index) = some v) :
    Turn decls G e b (index+1) (checkAscending (e, index) previous v s) := by
  have hwrong := notAscending_iff hprevious hv
  have herrors : ∀ m ∈ s.errors, m ∈ (Enums.checkAscending (e, index) previous v s).errors :=
    fun m hm => (mem_checkAscending_errors ..).mpr (.inl hm)
  constructor
  · simpa using h.evaluating
  · simpa using h.ends
  · simpa using h.grows
  · exact fun m hm => herrors m (h.errors m hm)
  · constructor
    · simpa using h.sound.prefixed
    · intro m hm
      rw [checkAscending_cache]
      obtain hm | ⟨rfl, hany⟩ := (mem_checkAscending_errors ..).mp hm
      · exact h.sound.wrong m hm
      · exact hwrong.mpr hany
    · intro m hm he
      simp only [checkAscending_cache, checkAscending_evaluating] at hm he
      exact herrors m (h.sound.reported m hm he)
  · intro j hj
    rw [checkAscending_cache]
    obtain hj | rfl := Nat.lt_succ_iff_lt_or_eq.mp hj
    · exact h.filled j hj
    · exact ⟨v, hv⟩
  · intro j hj hm
    rw [checkAscending_cache] at hm
    obtain hj | rfl := Nat.lt_succ_iff_lt_or_eq.mp hj
    · exact herrors _ (h.checked j hj hm)
    · exact (mem_checkAscending_errors ..).mpr (.inr ⟨rfl, hwrong.mp hm⟩)

end Turn

variable {e : ε} {b s : OrdinalState ε} {index : Nat}

theorem valueOrdinal_eq (h : Evaluates decls evaluate (insert e G)) (he : e ∉ G)
    (hs : Turn decls G e b index s) {value : MemberValue ε}
    (hvalue : (decls e)[index]? = some value) {previous : Option Int}
    (hprevious : previousOrdinal s.cache (e, index) = some previous) :
    ∃ s', valueOrdinal decls evaluate (e, index) value previous s =
        some (completion decls G b.cache (e, index), s') ∧ Turn decls G e b index s' ∧
      Below s.cache s'.cache ∧ s'.cache (e, index) = completion decls G b.cache (e, index) := by
  have hrule : Growing (declaredOrdinal decls) := declaredOrdinal_growing
  rw [valueOrdinal]
  split
  · rename_i v hv
    have hsome : completion decls G b.cache (e, index) = some v := by
      rw [← hs.ends]
      exact closure_given hrule _ v hv
    exact ⟨s, by rw [hsome], hs, Below.refl _, by rw [hsome, hv]⟩
  · rename_i hnone
    obtain ⟨s₁, hfind, hs₁⟩ := findOrdinal_eq h hs.evaluating hs.sound value previous
    have hshut : s₁.cache (e, index) = none := by
      rw [hs₁.shut (by rw [hs.evaluating]; exact Finset.mem_insert_self e G), hnone]
    -- the enum is under way, and the members before this one are all that it can be asked for
    have hdeclared : value.ordinal (completion decls (insert e G) s.cache) previous =
        completion decls G b.cache (e, index) := by
      have hprevious' : previousOrdinal (completion decls (insert e G) s.cache) (e, index) =
          some previous :=
        previousOrdinal_growing (closure_given hrule) hprevious
      have hvalue' : (decls (e, index).1)[(e, index).2]? = some value := hvalue
      rw [← declaredOrdinal_of hvalue' hprevious', ← hs.ends]
      exact declaredOrdinal_shut hs.sound.prefixed (fun m => by simp) (fun _ => he) hs.filled hnone
    rw [hfind, Option.map_some, hdeclared]
    have hturn : Turn decls G e b index s₁ := hs.within hs₁
    cases hv : completion decls G b.cache (e, index) with
    | none => exact ⟨s₁, rfl, hturn, hs₁.grows, hshut⟩
    | some v =>
      have hstored : (s₁.store (e, index) v).cache (e, index) = some v := Function.update_self ..
      have hgrows : Below s.cache (s₁.store (e, index) v).cache := by
        intro m w hw
        by_cases hm : m = (e, index)
        · subst hm
          rw [hnone] at hw
          cases hw
        · rw [show (s₁.store (e, index) v).cache m = s₁.cache m from Function.update_of_ne hm _ _]
          exact hs₁.grows m w hw
      exact ⟨s₁.store (e, index) v, rfl, hturn.store hshut hv, hgrows, hstored⟩

theorem evaluateMembers_eq (h : Evaluates decls evaluate (insert e G)) (he : e ∉ G)
    {values : List (MemberValue ε)} (hvalues : (decls e).drop index = values)
    (hs : Turn decls G e b index s) {previous : Option Int}
    (hprevious : previousOrdinal s.cache (e, index) = some previous) :
    ∃ s' stop, evaluateMembers decls evaluate e values index previous s = some s' ∧
      Turn decls G e b stop s' ∧ completion decls G b.cache (e, stop) = none := by
  induction values generalizing index previous s with
  | nil =>
    refine ⟨s, index, rfl, hs, ?_⟩
    rw [← hs.ends]
    exact (hs.sound.prefixed.closure fun m => m.1 ∈ G).none_outside (List.drop_eq_nil_iff.mp hvalues)
  | cons value values ih =>
    have hvalue : (decls e)[index]? = some value := by
      rw [← List.head?_drop, hvalues]
      rfl
    have htail : (decls e).drop (index+1) = values := by
      rw [← List.tail_drop, hvalues]
      rfl
    obtain ⟨s₁, hfound, hturn, hgrows, hcache⟩ := valueOrdinal_eq h he hs hvalue hprevious
    rw [evaluateMembers, hfound]
    cases hv : completion decls G b.cache (e, index) with
    | none => exact ⟨s₁, index, rfl, hturn, hv⟩
    | some v =>
      rw [hv] at hcache
      have hnext := hturn.checkAscending (previousOrdinal_growing hgrows hprevious) hcache
      have hprevious' : previousOrdinal (checkAscending (e, index) previous v s₁).cache
          (e, index+1) = some (some v) := by
        rw [checkAscending_cache]
        exact previousOrdinal_of_succ hcache
      exact ih htail hnext hprevious'

theorem Turn.finish (hs : Turn decls G e b index s) (he : e ∉ G) (hb : b.evaluating = G)
    (hstop : completion decls G b.cache (e, index) = none) :
    Within decls b { s with evaluating := s.evaluating.erase e } ∧
      ∀ j, s.cache (e, j) = completion decls G b.cache (e, j) := by
  have hrule : Growing (declaredOrdinal decls) := declaredOrdinal_growing
  have hfound : Below s.cache (completion decls G b.cache) := by
    rw [← hs.ends]
    exact closure_given hrule
  have hafter : ∀ j, index ≤ j → completion decls G b.cache (e, j) = none := by
    rw [← hs.ends] at hstop ⊢
    exact fun j hj => (hs.sound.prefixed.closure fun m => m.1 ∈ G).none_le hj hstop
  have hcache : ∀ j, s.cache (e, j) = completion decls G b.cache (e, j) := by
    intro j
    cases hv : s.cache (e, j) with
    | some v => exact (hfound (e, j) v hv).symm
    | none =>
      obtain hj | hj := Nat.lt_or_ge j index
      · obtain ⟨v, hv'⟩ := hs.filled j hj
        rw [hv] at hv'
        cases hv'
      · exact (hafter j hj).symm
  have hG : s.evaluating.erase e = b.evaluating := by
    rw [hs.evaluating, Finset.erase_insert he, hb]
  refine ⟨⟨hG, ?_, hs.grows, hs.errors, ⟨hs.sound.prefixed, hs.sound.wrong, ?_⟩⟩, hcache⟩
  · rw [hb]
    exact hs.ends
  · intro m hwrong hm
    by_cases hme : m.1 = e
    · obtain ⟨e', j⟩ := m
      obtain rfl : e' = e := hme
      have hj : j < index := by
        obtain ⟨-, -, v, -, -, hv, -⟩ := hwrong
        by_contra hj
        rw [hcache, hafter j (Nat.le_of_not_lt hj)] at hv
        cases hv
      exact hs.checked j hj hwrong
    · refine hs.sound.reported m hwrong fun hin => hm ?_
      exact Finset.mem_erase.mpr ⟨hme, hin⟩

end

theorem evaluateEnumOrdinals_evaluates [Fintype ε] (depth : Nat) (G : Finset ε)
    (h : Fintype.card ε < depth+G.card) :
    Evaluates decls (evaluateEnumOrdinals decls depth) G := by
  induction depth generalizing G with
  | zero => exact absurd (Finset.card_le_univ G) (by omega)
  | succ depth ih =>
    intro e s hG hs
    rw [evaluateEnumOrdinals]
    split
    · rename_i he
      rw [hG] at he
      exact ⟨s, rfl, .refl hs, fun hne => absurd he hne⟩
    · rename_i he
      rw [hG] at he
      have hdeeper : Evaluates decls (evaluateEnumOrdinals decls depth) (insert e G) :=
        ih (insert e G) (by rw [Finset.card_insert_of_notMem he]; omega)
      have hturn : Turn decls G e s 0 { s with evaluating := insert e s.evaluating } := by
        constructor
        · rw [hG]
        · rfl
        · exact Below.refl _
        · exact fun m hm => hm
        · refine ⟨hs.prefixed, hs.wrong, fun m hwrong hm => hs.reported m hwrong fun hin => hm ?_⟩
          exact Finset.mem_insert_of_mem hin
        · exact fun j hj => absurd hj (Nat.not_lt_zero j)
        · exact fun j hj => absurd hj (Nat.not_lt_zero j)
      obtain ⟨s', stop, hrun, hs', hstop⟩ :=
        evaluateMembers_eq hdeeper he List.drop_zero hturn rfl
      obtain ⟨hwithin, hcache⟩ := hs'.finish he hG hstop
      rw [hrun]
      exact ⟨_, rfl, hwithin, fun _ => hcache⟩

/-- The state between two questions: no enum is under way, and it comes to the ordinals. -/
structure Settled (decls : EnumDecls ε) (s : OrdinalState ε) : Prop where
  evaluating : s.evaluating = ∅
  ends : completion decls ∅ s.cache = ordinals decls
  sound : Sound decls s

theorem Settled.start : Settled decls .start := by
  refine ⟨rfl, closure_start (fun m => by simp) (fun _ => rfl), ⟨?_, ?_, ?_⟩⟩
  · constructor
    · intro m v hv
      cases hv
    · intro e index v hv
      cases hv
  · intro m hm
    cases hm
  · intro m hwrong
    obtain ⟨-, -, v, -, -, hv, -⟩ := hwrong
    cases hv

theorem Settled.within {s s' : OrdinalState ε} (h : Settled decls s) (hs : Within decls s s') :
    Settled decls s' := by
  have hends := hs.ends
  rw [h.evaluating] at hends
  exact ⟨hs.evaluating.trans h.evaluating, hends.trans h.ends, hs.sound⟩

theorem Settled.ask [Fintype ε] {s : OrdinalState ε} (h : Settled decls s) (m : Member ε) :
    ∃ s', askOrdinal decls m s = some (ordinals decls m, s') ∧ Settled decls s' := by
  obtain ⟨s', hfound, hwithin⟩ := enumMemberOrdinal_eq
    (evaluateEnumOrdinals_evaluates (Fintype.card ε+1) ∅ (by simp)) h.evaluating h.sound m
  rw [h.ends] at hfound
  exact ⟨s', hfound, h.within hwithin⟩

theorem Reachable.settled [Fintype ε] {s : OrdinalState ε} (h : Reachable decls s) :
    Settled decls s := by
  induction h with
  | start => exact .start
  | @ask s s' m found h hask ih =>
    obtain ⟨s₁, hfound, hs₁⟩ := ih.ask m
    rw [hfound, Option.some.injEq, Prod.mk.injEq] at hask
    rw [← hask.2]
    exact hs₁

/-- Whatever was asked before, a question is answered by the ordinal that the declarations give. -/
theorem askOrdinal_answers [Fintype ε] {s : OrdinalState ε} (h : Reachable decls s)
    (m : Member ε) :
    ∃ s', askOrdinal decls m s = some (ordinals decls m, s') ∧ Reachable decls s' := by
  obtain ⟨s', hask, -⟩ := h.settled.ask m
  exact ⟨s', hask, h.ask hask⟩

end

section
variable {ε : Type} {decls : EnumDecls ε}

/-- What is known of an enum that was evaluated. -/
structure Evaluated (decls : EnumDecls ε) (e : ε) (s : OrdinalState ε) : Prop where
  /-- The value of the constant, with all ordinals that the enums have. -/
  explicit : ∀ index x v, (decls e)[index]? = some (.explicit x) → s.cache (e, index) = some v →
    ∃ info, x.fold.eval (ordinals decls) = some info ∧ info.val.denote = v
  first : ∀ v, (decls e)[0]? = some .implicit → s.cache (e, 0) = some v → v = 0
  next : ∀ index v, (decls e)[index+1]? = some .implicit → s.cache (e, index+1) = some v →
    ∃ p, s.cache (e, index) = some p ∧ v = p+1
  int64 : ∀ index v, s.cache (e, index) = some v → cxxInt64.Holds v
  missing : ∀ i j, i ≤ j → s.cache (e, i) = none → s.cache (e, j) = none
  /-- The first member without an ordinal is no constant, or is beyond 64 signed bits. -/
  stops : ∀ index x, (decls e)[index]? = some (.explicit x) → s.cache (e, index) = none →
    (∀ j, j < index → s.cache (e, j) ≠ none) → ∀ info, x.fold.eval (ordinals decls) = some info →
      ¬ cxxInt64.Holds info.val.denote
  overflows : ∀ index, (decls e)[index]? = some .implicit → s.cache (e, index) = none →
    (∀ j, j < index → s.cache (e, j) ≠ none) →
      ∃ i p, index = i+1 ∧ s.cache (e, i) = some p ∧ ¬ cxxInt64.Holds (p+1)
  reported : ∀ index, (e, index) ∈ s.errors ↔ NotAscending s.cache (e, index)
  ascending : (∀ index, (e, index) ∉ s.errors) → ∀ i j v w, i < j → s.cache (e, i) = some v →
    s.cache (e, j) = some w → v < w

theorem evaluated_of {s : OrdinalState ε} (hs : Sound decls s) (hG : s.evaluating = ∅) {e : ε}
    (h : ∀ index, s.cache (e, index) = ordinals decls (e, index)) : Evaluated decls e s := by
  have hreported : ∀ index, (e, index) ∈ s.errors ↔ NotAscending s.cache (e, index) :=
    fun index => ⟨hs.wrong _, fun hm => hs.reported _ hm (by simp [hG])⟩
  constructor
  · intro index x v hx hv
    rw [h] at hv
    exact ordinals_explicit hx hv
  · intro v himplicit hv
    rw [h] at hv
    exact ordinals_first himplicit hv
  · intro index v himplicit hv
    rw [h] at hv ⊢
    exact ordinals_next himplicit hv
  · intro index v hv
    rw [h] at hv
    exact ordinals_int64 hv
  · exact fun i j hij hi => hs.prefixed.none_le hij hi
  · intro index x hx hnone hfilled
    simp only [h] at hnone hfilled
    exact ordinals_stops hx hnone hfilled
  · intro index himplicit hnone hfilled
    simp only [h] at hnone hfilled ⊢
    exact ordinals_overflows himplicit hnone hfilled
  · exact hreported
  · intro hnone i j v w hij hv hw
    exact hs.prefixed.ascending (fun index => mt (hreported index).mpr (hnone index)) hij hv hw

theorem evaluateEnumOrdinals_evaluated [DecidableEq ε] [Fintype ε] {s : OrdinalState ε}
    (h : Reachable decls s) (e : ε) {depth : Nat} (hdepth : Fintype.card ε < depth) :
    ∃ s', evaluateEnumOrdinals decls depth e s = some s' ∧ Evaluated decls e s' := by
  have hs := h.settled
  obtain ⟨s', hrun, hwithin, hcache⟩ :=
    evaluateEnumOrdinals_evaluates depth ∅ (by simpa using hdepth) e s hs.evaluating hs.sound
  rw [hs.ends] at hcache
  have hs' := hs.within hwithin
  exact ⟨s', hrun, evaluated_of hs'.sound hs'.evaluating (hcache (by simp))⟩

end

/-! `type e = (a, b := Ord(a)+5, c)` -/

def offsetDecls : EnumDecls Unit := fun _ =>
  [.implicit, .explicit (.ofConst ⟨64, TargetInfo.sixtyFour⟩
    (.binary .add (.ident (.ord ((), 0))) (.lit (.ofInt _ 5)) false)), .implicit]

theorem evaluateEnumOrdinals_offset : ∃ s,
    evaluateEnumOrdinals offsetDecls 2 () .start = some s ∧ Evaluated offsetDecls () s ∧
      s.cache ((), 0) = some 0 ∧ s.cache ((), 1) = some 5 ∧ s.cache ((), 2) = some 6 := by
  obtain ⟨s, hrun, hs⟩ := @evaluateEnumOrdinals_evaluated _ offsetDecls _ _ _ .start () 2 (by decide)
  have hvalues : (evaluateEnumOrdinals offsetDecls 2 () .start).map
      (fun s => (s.cache ((), 0), s.cache ((), 1), s.cache ((), 2))) =
        some (some 0, some 5, some 6) := by decide
  rw [hrun, Option.map_some, Option.some.injEq, Prod.mk.injEq, Prod.mk.injEq] at hvalues
  exact ⟨s, hrun, hs, hvalues⟩

/-! `type p = (a = Ord(y)+2, b); q = (x, y)`: the first enum asks for a member of the second. -/

def forwardDecls : EnumDecls Bool
  | false => [.explicit (.ofConst ⟨64, TargetInfo.sixtyFour⟩
      (.binary .add (.ident (.ord (true, 1))) (.lit (.ofInt _ 2)) false)), .implicit]
  | true => [.implicit, .implicit]

theorem ordinals_forward : ordinals forwardDecls (false, 1) = some 4 := by
  obtain ⟨s, hask, -⟩ := @askOrdinal_answers _ _ forwardDecls _ _ .start (false, 1)
  have hvalue : (askOrdinal forwardDecls (false, 1) .start).map (·.1) = some (some 4) := by decide
  rw [hask] at hvalue
  exact Option.some.inj hvalue

end Tp2cc.Enums
