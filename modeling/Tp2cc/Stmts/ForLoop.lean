import Tp2cc.Analysis.Ordinal
import Tp2cc.Machine.Conversion
import Tp2cc.Machine.Loop

/-! The counting loop: the code emitted for `for`, and the loop Pascal asks for. -/
set_option autoImplicit false

namespace Tp2cc
open Machine Rt

inductive BodyEnd where
  | completed | left
  deriving DecidableEq, Repr

/-- A loop body reads the control variable and never assigns it. -/
abbrev LoopBody (σ : Type) := Int → σ → σ × BodyEnd

structure ForState (σ : Type) (r : IntType) where
  visited : List Int
  var : Word r
  env : σ

section
variable {σ : Type} {r f t : IntType}

/-- `ordinal_step_cxx`: the hidden step, without checks and with idle bounds. -/
def ordinalStepCxx (carrier : IntType) (subtract : Bool) (value : Word r) :
    Except RuntimeError (Word r) :=
  if subtract then
    tp2ccOrdinalSub false false value (.ofInt carrier 1) (.ofInt carrier 0) (.ofInt carrier 0)
  else tp2ccOrdinalAdd false false value (.ofInt carrier 1) (.ofInt carrier 0) (.ofInt carrier 0)

def forRound (downto : Bool) (carrier : IntType) (tp2ccTo : Word t) (body : LoopBody σ)
    (st : ForState σ r) : LoopStep (ForState σ r) (Except RuntimeError (ForState σ r)) :=
  let (env, bodyEnd) := body st.var.val st.env
  let ran : ForState σ r := ⟨st.visited ++ [st.var.val], st.var, env⟩
  match bodyEnd with
  | .left => .done (.ok ran)
  | .completed =>
    if cxxEq st.var tp2ccTo then .done (.ok ran)
    else match ordinalStepCxx carrier downto st.var with
      | .ok next => .again { ran with var := next }
      | .error e => .done (.error e)

/-- `tp2cc_from <= tp2cc_to`, or `>=`, which converts both to one type as `<=` does. -/
def entryTest (downto : Bool) (first : Word f) (last : Word t) : Bool :=
  if downto then cxxLe last first else cxxLe first last

/-- `emit_ordinal_for_body`. The copies of the bounds keep the types of their expressions. -/
def emitOrdinalForBody (downto : Bool) (carrier : IntType) (start : σ → Word f × σ)
    (stop : σ → Word t × σ) (body : LoopBody σ) (fuel : Nat) (st : ForState σ r) :
    Option (Except RuntimeError (ForState σ r)) :=
  let (tp2ccFrom, env₁) := start st.env
  let (tp2ccTo, env₂) := stop env₁
  if entryTest downto tp2ccFrom tp2ccTo then
    loop (forRound downto carrier tp2ccTo body) fuel
      ⟨st.visited, tp2ccFrom.cast r, env₂⟩
  else some (.ok { st with env := env₂ })

def direction (downto : Bool) : Int := if downto then -1 else 1

def pascalRange (downto : Bool) (start stop : Int) : List Int :=
  (List.range (direction downto*(stop-start)+1).toNat).map fun (i : Nat) => start+direction downto*i

def runOver (body : LoopBody σ) : List Int → ForState σ r → ForState σ r
  | [], st => st
  | v :: vs, st =>
    let (env, bodyEnd) := body v st.env
    let ran : ForState σ r := ⟨st.visited ++ [v], .ofInt r v, env⟩
    match bodyEnd with
    | .left => ran
    | .completed => runOver body vs ran

/-- The loop Pascal asks for: both bounds once, then the body over the range. -/
def pascalFor (downto : Bool) (start : σ → Word f × σ) (stop : σ → Word t × σ) (body : LoopBody σ)
    (st : ForState σ r) : ForState σ r :=
  let (first, env₁) := start st.env
  let (last, env₂) := stop env₁
  runOver body (pascalRange downto first.val last.val) { st with env := env₂ }

theorem pascalRange_empty {downto : Bool} {start stop : Int}
    (h : direction downto*(stop-start) < 0) : pascalRange downto start stop = [] := by
  have : (direction downto*(stop-start)+1).toNat = 0 := by omega
  simp [pascalRange, this]

theorem pascalRange_cons {downto : Bool} {start stop : Int}
    (h : 0 ≤ direction downto*(stop-start)) :
    pascalRange downto start stop =
      start :: pascalRange downto (start+direction downto) stop := by
  have hd : direction downto*(stop-(start+direction downto))+1 =
      direction downto*(stop-start) := by
    cases downto <;> simp [direction] <;> omega
  obtain ⟨n, hn⟩ : ∃ n : Nat, direction downto*(stop-start) = n :=
    ⟨_, (Int.toNat_of_nonneg h).symm⟩
  have h₁ : (direction downto*(stop-start)+1).toNat = n+1 := by omega
  have h₂ : (direction downto*(stop-(start+direction downto))+1).toNat = n := by omega
  simp only [pascalRange, h₁, h₂, List.range_succ_eq_map, List.map_cons, List.map_map]
  simp [Function.comp_def, mul_add, add_comm]
  exact fun i _ => (add_assoc _ _ _).symm

theorem ordinalStepCxx_eq {carrier : IntType} (h64 : carrier.bits ≤ 64)
    (hr : r.bits ≤ carrier.bits) (downto : Bool) (value : Word r) :
    ordinalStepCxx carrier downto value = .ok (.ofInt r (value.val+direction downto)) := by
  have ht (v : Int) : r.reduce (carrier.reduce v) = r.reduce v := IntType.reduce_through hr v
  have key {w : Word carrier} {d : Int} (hw : w.val = carrier.reduce (value.val+d)) :
      ordinalResult r false (.ofInt carrier 0) (.ofInt carrier 0) w =
        .ok (.ofInt r (value.val+d)) := by
    simp only [ordinalResult, Bool.false_eq_true, false_and, if_false]
    exact congrArg _ (Word.ext (by rw [tp2ccOrdinalFromCarrier_val, hw, ht, Word.ofInt_val]))
  cases downto with
  | true =>
    simp only [ordinalStepCxx, if_true, tp2ccOrdinalSub, Bool.false_eq_true, if_false, direction]
    refine key ?_
    rw [tp2ccWrapSub_eq h64, Word.sub_val, Word.cast_val, Word.ofInt_val, IntType.reduce_sub]
    rfl
  | false =>
    simp only [ordinalStepCxx, tp2ccOrdinalAdd, Bool.false_eq_true, if_false, direction]
    refine key ?_
    rw [tp2ccWrapAdd_eq h64, Word.add_val, Word.cast_val, Word.ofInt_val, IntType.reduce_add]

theorem runOver_cons (body : LoopBody σ) (v : Int) (vs : List Int) (st : ForState σ r) :
    runOver body (v :: vs) st =
      match (body v st.env).2 with
      | .left => ⟨st.visited ++ [v], .ofInt r v, (body v st.env).1⟩
      | .completed => runOver body vs ⟨st.visited ++ [v], .ofInt r v, (body v st.env).1⟩ := rfl

theorem runOver_visited_length (body : LoopBody σ) (vs : List Int) (st : ForState σ r) :
    st.visited.length ≤ (runOver body vs st).visited.length := by
  induction vs generalizing st with
  | nil => exact le_refl _
  | cons v vs ih =>
    rw [runOver_cons]
    cases (body v st.env).2 with
    | left => simp
    | completed =>
      have := ih ⟨st.visited ++ [v], .ofInt r v, (body v st.env).1⟩
      simp only [List.length_append, List.length_singleton] at this ⊢
      omega

theorem runOver_cons_visited_length (body : LoopBody σ) (v : Int) (vs : List Int)
    (st : ForState σ r) :
    st.visited.length < (runOver body (v :: vs) st).visited.length := by
  rw [runOver_cons]
  cases (body v st.env).2 with
  | left => simp
  | completed =>
    have := runOver_visited_length body vs ⟨st.visited ++ [v], .ofInt r v, (body v st.env).1⟩
    simp only [List.length_append, List.length_singleton] at this ⊢
    omega

section
variable {carrier : IntType} {downto : Bool} {tp2ccTo : Word t} {body : LoopBody σ}

theorem forRound_left {st : ForState σ r} (h : (body st.var.val st.env).2 = .left) :
    forRound downto carrier tp2ccTo body st =
      .done (.ok ⟨st.visited ++ [st.var.val], st.var, (body st.var.val st.env).1⟩) := by
  simp [forRound, h]

theorem forRound_last {st : ForState σ r} (h : (body st.var.val st.env).2 = .completed)
    (he : cxxEq st.var tp2ccTo = true) :
    forRound downto carrier tp2ccTo body st =
      .done (.ok ⟨st.visited ++ [st.var.val], st.var, (body st.var.val st.env).1⟩) := by
  simp [forRound, h, he]

theorem forRound_next {st : ForState σ r} (h : (body st.var.val st.env).2 = .completed)
    (he : ¬ cxxEq st.var tp2ccTo = true) {next : Word r}
    (hn : ordinalStepCxx carrier downto st.var = .ok next) :
    forRound downto carrier tp2ccTo body st =
      .again ⟨st.visited ++ [st.var.val], next, (body st.var.val st.env).1⟩ := by
  simp [forRound, h, he, hn]

/-- From a value `n` steps before the end bound the emitted loop runs over the rest of the
range. The induction is on `n`; the step never leaves the values between the two bounds. -/
theorem loop_forRound (h64 : carrier.bits ≤ 64) (hr : r.bits ≤ carrier.bits)
    (hto : r.Holds tp2ccTo.val) (n : Nat) (st : ForState σ r) (w : Word r)
    (hn : direction downto*(tp2ccTo.val-st.var.val) = n) :
    loop (forRound downto carrier tp2ccTo body) (n+1) st =
      some (.ok (runOver body (pascalRange downto st.var.val tp2ccTo.val)
        { st with var := w })) := by
  have hw : Word.ofInt r st.var.val = st.var := Word.ofInt_of_holds st.var.mem
  induction n generalizing st w with
  | zero =>
    have he : st.var.val = tp2ccTo.val := by cases downto <;> simp [direction] at hn <;> omega
    have hone : pascalRange downto st.var.val tp2ccTo.val = [st.var.val] := by
      rw [pascalRange_cons (by omega), pascalRange_empty]
      rw [he]
      cases downto <;> simp [direction]
    rw [hone, runOver_cons, hw]
    cases hb : (body st.var.val st.env).2 with
    | left => exact loop_done (forRound_left hb) 0
    | completed => exact loop_done (forRound_last hb ((cxxEq_iff hto).mpr he)) 0
  | succ n ih =>
    have hne : ¬ cxxEq st.var tp2ccTo = true := by
      rw [cxxEq_iff hto]
      intro he
      rw [he] at hn
      simp at hn
      omega
    rw [pascalRange_cons (by omega), runOver_cons, hw]
    cases hb : (body st.var.val st.env).2 with
    | left => exact loop_done (forRound_left hb) (n+1)
    | completed =>
      have hin : r.Holds (st.var.val+direction downto) := by
        obtain ⟨h₁, h₂⟩ := st.var.mem
        obtain ⟨h₃, h₄⟩ := hto
        constructor <;> cases downto <;> simp [direction] at hn ⊢ <;> omega
      have hnext := ordinalStepCxx_eq h64 hr downto st.var
      rw [Word.ofInt_of_holds hin] at hnext
      rw [loop_again (forRound_next hb hne hnext)]
      refine ih _ st.var ?_ (Word.ofInt_of_holds hin)
      cases downto <;> simp [direction] at hn ⊢ <;> omega

theorem forRound_visited (st : ForState σ r) {res : Except RuntimeError (ForState σ r)}
    (h : forRound downto carrier tp2ccTo body st = .done res) {out : ForState σ r}
    (ho : res = .ok out) : st.visited.length < out.visited.length := by
  cases hb : (body st.var.val st.env).2 with
  | left =>
    rw [forRound_left hb] at h
    cases h; cases ho
    simp
  | completed =>
    by_cases he : cxxEq st.var tp2ccTo = true
    · rw [forRound_last hb he] at h
      cases h; cases ho
      simp
    · cases hn : ordinalStepCxx carrier downto st.var with
      | ok next => rw [forRound_next hb he hn] at h; cases h
      | error e => simp [forRound, hb, he, hn] at h; subst h; cases ho

theorem loop_forRound_visited {fuel : Nat} {st out : ForState σ r}
    (h : loop (forRound downto carrier tp2ccTo body) fuel st = some (.ok out)) :
    st.visited.length < out.visited.length := by
  refine loop_invariant (I := fun s => st.visited.length ≤ s.visited.length)
    (P := fun res => ∀ out, res = .ok out → st.visited.length < out.visited.length)
    ?_ ?_ (le_refl _) h out rfl
  · intro s s' hs hst
    cases hb : (body s.var.val s.env).2 with
    | left => rw [forRound_left hb] at hst; cases hst
    | completed =>
      by_cases he : cxxEq s.var tp2ccTo = true
      · rw [forRound_last hb he] at hst; cases hst
      · cases hn : ordinalStepCxx carrier downto s.var with
        | ok next =>
          rw [forRound_next hb he hn] at hst
          cases hst
          simp only [List.length_append, List.length_singleton]
          omega
        | error e => simp [forRound, hb, he, hn] at hst
  · intro s res hs hst out ho
    exact hs.trans_lt (forRound_visited s hst ho)

end

/-- When the entry test answers as Pascal would: the common type of the copies is signed, both
bounds have one sign, or the negative one still compares right after counting from the top. -/
def EntryExact (downto : Bool) (first : Word f) (last : Word t) : Prop :=
  let size : Int := 2^(f.usual t).bits
  (f.usual t).signed = true ∨ (first.val < 0 ↔ last.val < 0) ∨
    (if first.val < 0 then
      (if downto = true then first.val+size < last.val else first.val+size ≤ last.val)
    else
      (if downto = true then last.val+size ≤ first.val else last.val+size < first.val))

instance (downto : Bool) (first : Word f) (last : Word t) :
    Decidable (EntryExact downto first last) := by
  unfold EntryExact; infer_instance

theorem entryTest_iff (downto : Bool) (first : Word f) (last : Word t) :
    (entryTest downto first last = true ↔ 0 ≤ direction downto*(last.val-first.val)) ↔
      EntryExact downto first last := by
  have hf := first.mem.lower (IntType.usual_bits_le_left f t)
  have hl := last.mem.lower (IntType.usual_bits_le_right f t)
  cases hs : (f.usual t).signed with
  | true =>
    have hs' : (t.usual f).signed = true := by rw [IntType.usual_comm, hs]
    cases downto <;>
      simp [entryTest, EntryExact, direction, cxxLe_signed hs, cxxLe_signed hs', hs]
  | false =>
    have hs' : (t.usual f).signed = false := by rw [IntType.usual_comm, hs]
    have hb : (t.usual f).bits = (f.usual t).bits := by rw [IntType.usual_comm]
    cases downto <;>
      simp only [entryTest, EntryExact, direction, cxxLe_unsigned hs, cxxLe_unsigned hs', hs, hb,
        decide_eq_true_eq, if_true, if_false, Bool.false_eq_true, false_or] <;>
      split_ifs <;> omega

theorem emitOrdinalForBody_iff {carrier : IntType} (h64 : carrier.bits ≤ 64)
    (hr : r.bits ≤ carrier.bits) (downto : Bool) (start : σ → Word f × σ) (stop : σ → Word t × σ)
    (body : LoopBody σ) (st : ForState σ r) (hf : r.Holds (start st.env).1.val)
    (ht : r.Holds (stop (start st.env).2).1.val) :
    (∃ fuel, emitOrdinalForBody downto carrier start stop body fuel st =
      some (.ok (pascalFor downto start stop body st))) ↔
      EntryExact downto (start st.env).1 (stop (start st.env).2).1 := by
  rw [← entryTest_iff]
  rcases hs : start st.env with ⟨first, env₁⟩
  rcases hl : stop env₁ with ⟨last, env₂⟩
  simp only [hs, hl] at hf ht ⊢
  simp only [emitOrdinalForBody, pascalFor, hs, hl]
  have hvar : (first.cast r).val = first.val := Word.cast_val_of_holds hf
  by_cases ht' : entryTest downto first last = true
  · simp only [ht', if_true, true_iff]
    constructor
    · rintro ⟨fuel, h⟩
      by_contra hneg
      have hv := loop_forRound_visited h
      rw [pascalRange_empty (by omega)] at hv
      exact absurd hv (lt_irrefl _)
    · intro hle
      obtain ⟨n, hn⟩ : ∃ n : Nat, direction downto*(last.val-first.val) = n :=
        ⟨_, (Int.toNat_of_nonneg hle).symm⟩
      refine ⟨n+1, ?_⟩
      have h : loop (forRound downto carrier last body) (n+1) _ = _ :=
        loop_forRound h64 hr ht n ⟨st.visited, first.cast r, env₂⟩ st.var
        (by rw [hvar]; exact hn)
      rw [hvar] at h
      exact h
  · simp only [ht', Bool.false_eq_true, if_false, false_iff, exists_const]
    constructor
    · intro h hle
      have he := Except.ok.inj (Option.some.inj h)
      rw [pascalRange_cons hle] at he
      have hv := runOver_cons_visited_length body first.val
        (pascalRange downto (first.val+direction downto) last.val) { st with env := env₂ }
      rw [← he] at hv
      exact absurd hv (lt_irrefl _)
    · intro hneg
      rw [pascalRange_empty (by omega)]
      rfl

end

section
variable {target : TargetInfo} {σ : Type} {f t : IntType}

/-- The emitted loop over an ordinal type is the Pascal loop exactly when its entry test is
right: it ends, runs the body over the range in order, reads each bound once and leaves the
control variable at the last value it ran for. -/
theorem emitOrdinalForBody_exact_iff {type : OrdinalType} {s : IntegerPrimitive}
    (hs : type.Stored target s) (downto : Bool) (start : σ → Word f × σ) (stop : σ → Word t × σ)
    (body : LoopBody σ) (st : ForState σ (type.cxxType target s))
    (hf : type.low target ≤ (start st.env).1.val ∧ (start st.env).1.val ≤ type.high target)
    (ht : type.low target ≤ (stop (start st.env).2).1.val ∧
      (stop (start st.env).2).1.val ≤ type.high target) :
    (∃ fuel, emitOrdinalForBody downto (s.intType target) start stop body fuel st =
      some (.ok (pascalFor downto start stop body st))) ↔
      EntryExact downto (start st.env).1 (stop (start st.env).2).1 :=
  emitOrdinalForBody_iff (s.intType_bits_le target) (type.cxxType_bits_le s) downto start stop
    body st (hs.cxxType_holds hf) (hs.cxxType_holds ht)

def longIntPrimitive : IntegerPrimitive := ⟨.longInt, PrimitiveKind.longInt_integer⟩

def longIntType : OrdinalType := .integer longIntPrimitive rfl (by decide)

theorem longIntStored : longIntType.Stored ⟨64, .inr rfl⟩ longIntPrimitive :=
  ⟨rfl, by decide, by decide, by decide⟩

def idle : LoopBody Unit := fun _ env => (env, .completed)
def idleStart : ForState Unit (longIntType.cxxType ⟨64, TargetInfo.sixtyFour⟩ longIntPrimitive) :=
  ⟨[], ⟨0, by decide⟩, ()⟩

def longIntBound (v : Int) : Unit → Word (longIntPrimitive.intType ⟨64, TargetInfo.sixtyFour⟩) × Unit :=
  fun env => (.ofInt _ v, env)

def longWordBound (v : Int) : Unit → Word (IntType.mk false 32 IntType.thirtyTwo_pos) × Unit :=
  fun env => (.ofInt _ v, env)

theorem emitOrdinalForBody_exact_iff_five :
    (∃ fuel, emitOrdinalForBody false (longIntPrimitive.intType ⟨64, .inr rfl⟩) (longIntBound 1)
        (longWordBound 5) idle fuel idleStart =
      some (.ok (pascalFor false (longIntBound 1) (longWordBound 5) idle idleStart))) ↔
      EntryExact false (longIntBound 1 ()).1 (longWordBound 5 ()).1 :=
  emitOrdinalForBody_exact_iff longIntStored false _ _ idle idleStart (by decide) (by decide)

/-- `for i := -1 to n` with a longword `n` of 5: the body never runs, where Pascal runs it for
the seven values from -1 to 5. -/
theorem emitOrdinalForBody_skips_negative :
    (∀ fuel, emitOrdinalForBody false (longIntPrimitive.intType ⟨64, .inr rfl⟩) (longIntBound (-1))
      (longWordBound 5) idle fuel idleStart = some (.ok idleStart)) ∧
    (pascalFor false (longIntBound (-1)) (longWordBound 5) idle idleStart).visited =
      [-1, 0, 1, 2, 3, 4, 5] :=
  ⟨fun _ => rfl, by decide⟩

end
end Tp2cc
