import Tp2cc.Analysis.ConstFold
import Tp2cc.Ast

set_option autoImplicit false

namespace Tp2cc
open Machine

section
variable (constant : Expr → Option ConstIntExprInfo)

/-- One round of `evaluate_enum_ordinals`: the ordinal of a member behind `previous`. -/
def memberOrdinal (previous : Option Int) (member : EnumMember) : Option Int :=
  match member.value with
  | some e => do
    let value ← constant e
    if value.isUnsigned ∧ value.bits.val > 2^63-1 then none else some value.value.val
  | none =>
    match previous with
    | none => some 0
    | some v => if cxxInt64.Holds (v+1) then some (v+1) else none

/-- The ordinals as far as the members have one, and whether an ordinal does not go up. -/
def evaluateEnumOrdinals : Option Int → List EnumMember → List (Option Int) × Bool
  | _, [] => ([],false)
  | previous, member :: members =>
    match memberOrdinal constant previous member with
    | none => ((member :: members).map fun _ => none,false)
    | some v =>
      let (values,error) := evaluateEnumOrdinals (some v) members
      (some v :: values,previous.any (v ≤ ·) || error)

def enumDomain (members : List EnumMember) : Option (Int × Int) := do
  let values := (evaluateEnumOrdinals constant none members).1
  let low ← (← values.head?)
  let high ← (← values.getLast?)
  return (low,high)

def ordinalStoragePrimitive (packenum : Nat) (members : List EnumMember) :
    Option IntegerPrimitive :=
  if members.isEmpty then ordinalIntegerPrimitive .signed 32
  else do
    let (low,high) ← enumDomain constant members
    enumStoragePrimitive packenum low high

def HasOrdinals (members : List EnumMember) (ordinals : List Int) : Prop :=
  evaluateEnumOrdinals constant none members = (ordinals.map some,false)

end

/-- The type holds every ordinal, gives each back as it was stored and keeps their order. -/
structure StoresOrdinals (t : IntType) (ordinals : List Int) : Prop where
  held : ∀ v ∈ ordinals, t.Holds v
  same : ∀ v ∈ ordinals, (Word.ofInt t v).val = v
  ordered : (ordinals.map fun v => (Word.ofInt t v).val).Pairwise (· < ·)

def Straddles (bits : Nat) (low high : Int) : Prop :=
  -(2^(bits-1)) ≤ low ∧ low < 0 ∧ 2^(bits-1) ≤ high ∧ high < 2^bits

/-- The last member is beyond the signed type of a width at which the first one is below zero. -/
def StraddlesAny (packenum : Nat) (low high : Int) : Prop :=
  packenum < 2 ∧ Straddles 8 low high ∨ packenum < 4 ∧ Straddles 16 low high ∨
    Straddles 32 low high

section
variable {constant : Expr → Option ConstIntExprInfo} {target : TargetInfo} {t : IntType}
  {members : List EnumMember} {ordinals : List Int} {packenum : Nat} {low high : Int}

theorem evaluateEnumOrdinals_strict {previous : Option Int}
    (h : evaluateEnumOrdinals constant previous members = (ordinals.map some,false)) :
    (∀ v ∈ previous, ∀ w ∈ ordinals, v < w) ∧ ordinals.Pairwise (· < ·) := by
  induction members generalizing previous ordinals with
  | nil =>
    obtain rfl : ordinals = [] := List.map_eq_nil_iff.mp (congrArg Prod.fst h).symm
    exact ⟨fun _ _ _ hw => (nomatch hw), .nil⟩
  | cons member members ih =>
    rw [evaluateEnumOrdinals] at h
    split at h
    · cases ordinals <;> simp at h
    · rename_i v hv
      cases ordinals with
      | nil => simp at h
      | cons w ordinals =>
        simp only [List.map_cons, Prod.mk.injEq, List.cons.injEq, Option.some.injEq,
          Bool.or_eq_false_iff] at h
        obtain ⟨⟨rfl, hvalues⟩, hup, herror⟩ := h
        obtain ⟨hlater, hpair⟩ := ih (Prod.ext hvalues herror)
        refine ⟨?_, .cons (hlater v rfl) hpair⟩
        rintro u rfl w hw
        have huv : u < v := by simpa using hup
        obtain rfl | hw := List.mem_cons.mp hw
        · exact huv
        · exact huv.trans (hlater v rfl w hw)

theorem memberOrdinal_int64 {previous : Option Int} {member : EnumMember} {v : Int}
    (h : memberOrdinal constant previous member = some v) : cxxInt64.Holds v := by
  unfold memberOrdinal at h
  split at h
  · obtain ⟨value, -, h⟩ := Option.bind_eq_some_iff.mp h
    split at h
    · cases h
    · cases h
      exact value.value.mem
  · split at h
    · cases h
      decide
    · split at h
      · cases h
        assumption
      · cases h

theorem evaluateEnumOrdinals_int64 {previous : Option Int}
    (h : evaluateEnumOrdinals constant previous members = (ordinals.map some,false)) :
    ∀ v ∈ ordinals, cxxInt64.Holds v := by
  induction members generalizing previous ordinals with
  | nil =>
    obtain rfl : ordinals = [] := List.map_eq_nil_iff.mp (congrArg Prod.fst h).symm
    exact fun _ hv => nomatch hv
  | cons member members ih =>
    rw [evaluateEnumOrdinals] at h
    split at h
    · cases ordinals <;> simp at h
    · rename_i v hv
      cases ordinals with
      | nil => simp at h
      | cons w ordinals =>
        simp only [List.map_cons, Prod.mk.injEq, List.cons.injEq, Option.some.injEq,
          Bool.or_eq_false_iff] at h
        obtain ⟨⟨rfl, hvalues⟩, -, herror⟩ := h
        intro u hu
        obtain rfl | hu := List.mem_cons.mp hu
        · exact memberOrdinal_int64 hv
        · exact ih (Prod.ext hvalues herror) u hu

/-- Width and sign are chosen apart, and the choice fails exactly where the last ordinal needs the
sign bit. -/
theorem enumStoragePrimitive_holds_iff (target : TargetInfo) {s : IntegerPrimitive}
    (h : enumStoragePrimitive packenum low high = some s) (ho : low ≤ high)
    (hl : cxxInt64.Holds low) (hh : cxxInt64.Holds high) :
    (s.intType target).Holds low ∧ (s.intType target).Holds high ↔
      ¬StraddlesAny packenum low high := by
  rw [holds_int64] at hl hh
  obtain ⟨hk, hb, -⟩ := ordinalIntegerPrimitive_spec h target
  simp only [StraddlesAny, Straddles]
  by_cases hneg : low < 0
  · rw [if_pos hneg] at hk
    rw [IntegerPrimitive.holds_of_signed hk, IntegerPrimitive.holds_of_signed hk, hb]
    split_ifs <;> omega
  · rw [if_neg hneg] at hk
    rw [IntegerPrimitive.holds_of_unsigned hk, IntegerPrimitive.holds_of_unsigned hk, hb]
    split_ifs <;> omega

theorem storesOrdinals_iff (h : ordinals.Pairwise (· < ·)) :
    StoresOrdinals t ordinals ↔ ∀ v ∈ ordinals, t.Holds v := by
  refine ⟨fun h => h.held, fun hheld => ?_⟩
  have hsame : ∀ v ∈ ordinals, (Word.ofInt t v).val = v := fun v hv =>
    IntType.reduce_of_holds (hheld v hv)
  refine ⟨hheld, hsame, ?_⟩
  rw [List.map_congr_left hsame, List.map_id']
  exact h

theorem pairwise_ends {v : Int} {rest : List Int} (h : (v :: rest).Pairwise (· < ·)) :
    ∀ w ∈ v :: rest, v ≤ w ∧ w ≤ (v :: rest).getLast (List.cons_ne_nil _ _) := by
  induction rest generalizing v with
  | nil => simp
  | cons u rest ih =>
    have hu := List.rel_of_pairwise_cons h (List.mem_cons_self ..)
    have hrest := ih h.of_cons
    rw [List.getLast_cons (List.cons_ne_nil _ _)]
    intro w hw
    obtain rfl | hw := List.mem_cons.mp hw
    · exact ⟨le_refl _, hu.le.trans (hrest u (List.mem_cons_self ..)).2⟩
    · exact ⟨hu.le.trans (hrest w hw).1, (hrest w hw).2⟩

theorem holds_ends {v : Int} {rest : List Int} (h : (v :: rest).Pairwise (· < ·)) :
    (∀ w ∈ v :: rest, t.Holds w) ↔
      t.Holds v ∧ t.Holds ((v :: rest).getLast (List.cons_ne_nil _ _)) := by
  constructor
  · exact fun hall => ⟨hall _ (List.mem_cons_self ..), hall _ (List.getLast_mem _)⟩
  · rintro ⟨hv, hlast⟩ w hw
    obtain ⟨hlow, hhigh⟩ := pairwise_ends h w hw
    exact ⟨hv.1.trans hlow, hhigh.trans hlast.2⟩

theorem evaluateEnumOrdinals_length (constant : Expr → Option ConstIntExprInfo)
    (previous : Option Int) (members : List EnumMember) :
    (evaluateEnumOrdinals constant previous members).1.length = members.length := by
  induction members generalizing previous with
  | nil => rfl
  | cons member members ih =>
    rw [evaluateEnumOrdinals]
    split
    · simp
    · simp [ih]

theorem enumDomain_cons {v : Int} {rest : List Int}
    (h : HasOrdinals constant members (v :: rest)) :
    enumDomain constant members =
      some (v,(v :: rest).getLast (List.cons_ne_nil _ _)) := by
  rw [enumDomain, h, List.getLast?_map, List.getLast?_eq_some_getLast (List.cons_ne_nil _ _)]
  rfl

theorem enumStoragePrimitive_isSome (packenum : Nat) (low high : Int) :
    ∃ s, enumStoragePrimitive packenum low high = some s := by
  refine ordinalIntegerPrimitive_isSome ?_ ?_
  · split_ifs <;> simp
  · split_ifs <;> simp

/-- The ends of an enum's ordinals keep clear of the limits that the choice of its storage
confuses. -/
def EndsApart (packenum : Nat) (ordinals : List Int) : Prop :=
  ∀ low ∈ ordinals.head?, ∀ high ∈ ordinals.getLast?, ¬StraddlesAny packenum low high

/-- An enum's storage keeps its members exactly where its first ordinal is not negative or its last
one is within the signed type of the width. -/
theorem ordinalStoragePrimitive_iff (target : TargetInfo) (packenum : Nat)
    (members : List EnumMember) (ordinals : List Int)
    (h : HasOrdinals constant members ordinals) :
    (∃ s, ordinalStoragePrimitive constant packenum members = some s ∧
      StoresOrdinals (s.intType target) ordinals) ↔ EndsApart packenum ordinals := by
  obtain ⟨-, hpair⟩ := evaluateEnumOrdinals_strict h
  have hint64 := evaluateEnumOrdinals_int64 h
  cases members with
  | nil =>
    obtain rfl : ordinals = [] := List.map_eq_nil_iff.mp (congrArg Prod.fst h).symm
    refine ⟨fun _ low hlow => (nomatch hlow), fun _ => ?_⟩
    exact ⟨_, rfl, (storesOrdinals_iff .nil).mpr fun v hv => nomatch hv⟩
  | cons member members =>
    cases ordinals with
    | nil =>
      have hlength := evaluateEnumOrdinals_length constant none (member :: members)
      rw [h] at hlength
      cases hlength
    | cons v rest =>
      obtain ⟨s, hs⟩ := enumStoragePrimitive_isSome packenum v
        ((v :: rest).getLast (List.cons_ne_nil _ _))
      have hrun : ordinalStoragePrimitive constant packenum (member :: members) = some s := by
        rw [ordinalStoragePrimitive, enumDomain_cons h]
        exact hs
      have hiff := enumStoragePrimitive_holds_iff target hs
        (pairwise_ends hpair v (List.mem_cons_self ..)).2 (hint64 v (List.mem_cons_self ..))
        (hint64 _ (List.getLast_mem _))
      rw [← holds_ends hpair, ← storesOrdinals_iff hpair] at hiff
      simp only [hrun, Option.some.injEq, exists_eq_left', hiff, EndsApart, List.head?_cons,
        Option.mem_def, forall_eq', List.getLast?_eq_some_getLast (List.cons_ne_nil v rest)]

def foldSignedLiteral : Expr → Option ConstIntExprInfo
  | .intLit value => some (foldLiteral (.ofInt _ value))
  | .unary op operand _ => do (foldUnary op (← foldSignedLiteral operand)).value?
  | _ => none

/-- `(a = -1, b, c = 100)` -/
def narrowEnum : List EnumMember :=
  [⟨"a", some (.unary .neg (.intLit 1) false)⟩, ⟨"b", none⟩, ⟨"c", some (.intLit 100)⟩]

theorem ordinalStoragePrimitive_narrow :
    (∃ s, ordinalStoragePrimitive foldSignedLiteral 1 narrowEnum = some s ∧
      StoresOrdinals (s.intType ⟨64, TargetInfo.sixtyFour⟩) [-1, 0, 100]) ↔
      EndsApart 1 [-1, 0, 100] :=
  ordinalStoragePrimitive_iff ⟨64, TargetInfo.sixtyFour⟩ 1 narrowEnum [-1, 0, 100] rfl

/-- `(a = -1, b = 200)` -/
def straddlingEnum : List EnumMember :=
  [⟨"a", some (.unary .neg (.intLit 1) false)⟩, ⟨"b", some (.intLit 200)⟩]

theorem ordinalStoragePrimitive_straddling :
    HasOrdinals foldSignedLiteral straddlingEnum [-1, 200] ∧
      ¬∃ s, ordinalStoragePrimitive foldSignedLiteral 1 straddlingEnum = some s ∧
        StoresOrdinals (s.intType ⟨64, TargetInfo.sixtyFour⟩) [-1, 200] := by
  refine ⟨rfl, ?_⟩
  rintro ⟨s, hs, hstores⟩
  have hheld := hstores.held 200 (by decide)
  cases hs
  exact absurd hheld (by decide)

end
end Tp2cc
