import Tp2cc.Lexer.IfMeets
import Tp2cc.Lexer.IfUnique

/-! The conditions that the evaluator gets wrong: a comparison of integers beyond 64 bits turns
the value, or a symbol has a text that goes on behind a boolean word. -/
set_option autoImplicit false

namespace Tp2cc.IfExpr
open Machine Parsing

/-! A text that goes on behind a boolean word is no value. -/

theorem Resumes.word {src : List Char} {k : Kind} (h : Resumes src k) :
    ∃ word ∈ [wordTrue, wordFalse], ∃ rest, HasWord word src rest ∧ rest ≠ [] := by
  cases h with
  | false hword hnext =>
    obtain ⟨d, hd, -⟩ := hnext.head
    exact ⟨_, by simp, _, hword, by rintro rfl; cases hd⟩
  | int hmem hword hint =>
    obtain ⟨d, hd, -⟩ := hint.head
    exact ⟨_, hmem, _, hword, by rintro rfl; cases hd⟩
  | both hword hnext _ =>
    obtain ⟨d, hd, -⟩ := hnext.head
    exact ⟨_, by simp, _, hword, by rintro rfl; cases hd⟩

theorem Resumes.not_isValue {text : List Char} {k : Kind} (h : Resumes (afterBlanks text) k) (v : Value) :
    ¬ IsValue text v := by
  obtain ⟨word, hmem, rest, hword, hne⟩ := h.word
  simp only [List.mem_cons, List.not_mem_nil, or_false] at hmem
  intro hv
  cases hv with
  | wordTrue htrue =>
    rcases hmem with rfl | rfl
    · exact hne (htrue.unique (by simp [IfExpr.wordTrue]) hword)
    · exact (htrue.only (by decide)).2 'f' _ (by decide) rest hword
  | wordFalse hfalse =>
    rcases hmem with rfl | rfl
    · exact (hfalse.only (by decide)).2 't' _ (by decide) rest hword
    · exact hne (hfalse.unique (by simp [IfExpr.wordFalse]) hword)
  | int hint =>
    refine hint.only.2 word ?_ rest hword
    rcases hmem with rfl | rfl <;> simp

/-! Whether a condition is accepted rests on the kinds of its operands alone. -/

section
variable {defines : Symbols}

/-- The operands of the condition fit; a text that goes on behind a boolean word is taken for what
it ends in. -/
inductive HasKind (defines : Symbols) : Cond → Kind → Prop
  | defined {sym : String} : HasKind defines (.defined sym) .boolean
  | bool {b : Bool} : HasKind defines (.bool b) .boolean
  | int {negative : Bool} {digits : List Char} : HasKind defines (.int negative digits) .integer
  | value {name text : String} {v : Value} : defines.lookup name = some (some text) →
      IsValue text.toList v → HasKind defines (.symbol name) v.kind
  | resumed {name text : String} {k : Kind} : defines.lookup name = some (some text) →
      Resumes (afterBlanks text.toList) k → HasKind defines (.symbol name) k
  | not {e : Cond} : HasKind defines e .boolean → HasKind defines (.not e) .boolean
  | join {j : Joint} {a b : Cond} : HasKind defines a .boolean → HasKind defines b .boolean →
      HasKind defines (.join j a b) .boolean
  | bools {op : RelOp} {a b : Cond} {f : Bool → Bool → Bool} : op.bools = some f →
      HasKind defines a .boolean → HasKind defines b .boolean →
      HasKind defines (.compare op a b) .boolean
  | ints {op : RelOp} {a b : Cond} : HasKind defines a .integer → HasKind defines b .integer →
      HasKind defines (.compare op a b) .boolean

/-- No symbol of the condition has a text that goes on behind a boolean word. -/
def Cond.Whole (defines : Symbols) : Cond → Prop
  | .symbol name => ∀ (text : String) (k : Kind), defines.lookup name = some (some text) →
      ¬ Resumes (afterBlanks text.toList) k
  | .not e => e.Whole defines
  | .join _ a b | .compare _ a b => a.Whole defines ∧ b.Whole defines
  | .defined _ | .bool _ | .int _ _ => True

theorem Value.kind_reduce (v : Value) : v.reduce.kind = v.kind := by cases v <;> rfl

theorem Value.of_boolean {v : Value} (h : v.kind = .boolean) : ∃ b, v = .bool b := by
  cases v with
  | bool b => exact ⟨b, rfl⟩
  | int i => cases h

theorem Value.of_integer {v : Value} (h : v.kind = .integer) : ∃ i, v = .int i := by
  cases v with
  | bool b => cases h
  | int i => exact ⟨i, rfl⟩

theorem Denotes.hasKind {e : Cond} {v : Value} (h : Denotes (reading defines) e v) :
    HasKind defines e v.kind := by
  induction h with
  | defined => exact .defined
  | bool => exact .bool
  | int => exact .int
  | symbol hv =>
    obtain ⟨text, htext, hv⟩ := hv
    rcases macroValue_cases hv with ⟨w, hw⟩ | hres
    · have hsame := macroValue_of_isValue hw
      rw [hv, Option.some.injEq] at hsame
      rw [hsame, Value.kind_reduce]
      exact .value htext hw
    · exact .resumed htext hres
  | not _ ih => exact .not ih
  | join _ _ iha ihb => exact .join iha ihb
  | bools hf _ _ iha ihb => exact .bools hf iha ihb
  | ints _ _ iha ihb => exact .ints iha ihb

theorem HasKind.denotes {env : Env} {e : Cond} {k : Kind} (h : HasKind defines e k)
    (hvalue : ∀ (name text : String) (v : Value), defines.lookup name = some (some text) →
      IsValue text.toList v → ∃ w, env.symbol name w ∧ w.kind = v.kind)
    (hresumed : e.Whole defines ∨ ∀ (name text : String) (k : Kind),
      defines.lookup name = some (some text) → Resumes (afterBlanks text.toList) k →
      ∃ w, env.symbol name w ∧ w.kind = k) :
    ∃ v, Denotes env e v ∧ v.kind = k := by
  induction h with
  | defined => exact ⟨_, .defined, rfl⟩
  | bool => exact ⟨_, .bool, rfl⟩
  | int => exact ⟨_, .int, rfl⟩
  | value htext hv =>
    obtain ⟨w, hw, hkind⟩ := hvalue _ _ _ htext hv
    exact ⟨w, .symbol hw, hkind⟩
  | resumed htext hres =>
    obtain hwhole | hresumed := hresumed
    · exact absurd hres (hwhole _ _ htext)
    · obtain ⟨w, hw, hkind⟩ := hresumed _ _ _ htext hres
      exact ⟨w, .symbol hw, hkind⟩
  | not _ ih =>
    obtain ⟨v, hv, hkind⟩ := ih hresumed
    obtain ⟨b, rfl⟩ := Value.of_boolean hkind
    exact ⟨_, .not hv, rfl⟩
  | join _ _ iha ihb =>
    obtain ⟨v, hv, hkind⟩ := iha (hresumed.imp_left (·.1))
    obtain ⟨w, hw, hkind'⟩ := ihb (hresumed.imp_left (·.2))
    obtain ⟨x, rfl⟩ := Value.of_boolean hkind
    obtain ⟨y, rfl⟩ := Value.of_boolean hkind'
    exact ⟨_, .join hv hw, rfl⟩
  | bools hf _ _ iha ihb =>
    obtain ⟨v, hv, hkind⟩ := iha (hresumed.imp_left (·.1))
    obtain ⟨w, hw, hkind'⟩ := ihb (hresumed.imp_left (·.2))
    obtain ⟨x, rfl⟩ := Value.of_boolean hkind
    obtain ⟨y, rfl⟩ := Value.of_boolean hkind'
    exact ⟨_, .bools hf hv hw, rfl⟩
  | ints _ _ iha ihb =>
    obtain ⟨v, hv, hkind⟩ := iha (hresumed.imp_left (·.1))
    obtain ⟨w, hw, hkind'⟩ := ihb (hresumed.imp_left (·.2))
    obtain ⟨x, rfl⟩ := Value.of_integer hkind
    obtain ⟨y, rfl⟩ := Value.of_integer hkind'
    exact ⟨_, .ints hv hw, rfl⟩

theorem HasKind.reading {e : Cond} {k : Kind} (h : HasKind defines e k) :
    ∃ v, Denotes (reading defines) e v ∧ v.kind = k := by
  refine h.denotes (fun name text v htext hv => ?_) (.inr fun name text k htext hres => ?_)
  · exact ⟨v.reduce, ⟨text, htext, macroValue_of_isValue hv⟩, v.kind_reduce⟩
  · obtain ⟨v, hv, hkind⟩ := hres.macroValue
    exact ⟨v, ⟨text, htext, hv⟩, hkind⟩

theorem HasKind.written {e : Cond} {k : Kind} (h : HasKind defines e k) (hwhole : e.Whole defines) :
    ∃ v, Denotes (written defines) e v ∧ v.kind = k :=
  h.denotes (fun _ text v htext hv => ⟨v, ⟨text, htext, hv⟩, rfl⟩) (.inl hwhole)

theorem Denotes.whole {e : Cond} {v : Value} (h : Denotes (written defines) e v) :
    e.Whole defines := by
  induction h with
  | symbol hv =>
    obtain ⟨text, htext, hv⟩ := hv
    intro text' k htext' hres
    rw [htext] at htext'
    cases htext'
    exact hres.not_isValue _ hv
  | not _ ih => exact ih
  | join _ _ iha ihb => exact ⟨iha, ihb⟩
  | bools _ _ _ iha ihb => exact ⟨iha, ihb⟩
  | ints _ _ iha ihb => exact ⟨iha, ihb⟩
  | _ => trivial

end

/-! Which conditions come out otherwise in 64 bits. -/

def Joint.unit : Joint → Bool
  | .and => true
  | .or => false

/-- The condition's value is another one where its integers are taken in 64 bits: a comparison of
two integers comes out otherwise, and nothing above it hides that. -/
def Cond.Turns (defines : Symbols) : Cond → Prop
  | .not e => e.Turns defines
  | .join j a b =>
    a.Turns defines ∧ ¬ b.Turns defines ∧ Denotes (written defines) b (.bool j.unit) ∨
    ¬ a.Turns defines ∧ b.Turns defines ∧ Denotes (written defines) a (.bool j.unit) ∨
    a.Turns defines ∧ b.Turns defines ∧
      ∃ x, Denotes (written defines) a (.bool x) ∧ Denotes (written defines) b (.bool x)
  | .compare op a b =>
    Xor (a.Turns defines) (b.Turns defines) ∨
    ∃ x y, Denotes (written defines) a (.int x) ∧ Denotes (written defines) b (.int y) ∧
      op.ints (int64.reduce x) (int64.reduce y) ≠ op.ints x y
  | .defined _ | .bool _ | .int _ _ | .symbol _ => False

theorem Joint.apply_ne_iff (j : Joint) (x y x' y' : Bool) : j.apply x' y' ≠ j.apply x y ↔
    x' ≠ x ∧ ¬ y' ≠ y ∧ y = j.unit ∨ ¬ x' ≠ x ∧ y' ≠ y ∧ x = j.unit ∨
      x' ≠ x ∧ y' ≠ y ∧ x = y := by
  revert x y x' y'
  cases j <;> decide

theorem RelOp.bools_ne_iff {op : RelOp} {f : Bool → Bool → Bool} (h : op.bools = some f)
    (x y x' y' : Bool) : f x' y' ≠ f x y ↔ Xor (x' ≠ x) (y' ≠ y) := by
  revert x y x' y'
  cases op <;> cases h <;> decide

theorem IsValue.unique {text : List Char} {v w : Value} (h : IsValue text v)
    (h' : IsValue text w) : w = v := by
  cases h with
  | wordTrue hword =>
    cases h' with
    | wordTrue _ => rfl
    | wordFalse hword' => exact absurd hword' ((hword.only (by decide)).2 'f' _ (by decide) _)
    | int hint => exact absurd hword (hint.only.2 _ (by simp) _)
  | wordFalse hword =>
    cases h' with
    | wordTrue hword' => exact absurd hword' ((hword.only (by decide)).2 't' _ (by decide) _)
    | wordFalse _ => rfl
    | int hint => exact absurd hword (hint.only.2 _ (by simp) _)
  | int hint =>
    cases h' with
    | wordTrue hword => exact absurd hword (hint.only.2 _ (by simp) _)
    | wordFalse hword => exact absurd hword (hint.only.2 _ (by simp) _)
    | int hint' =>
      obtain ⟨rfl, rfl, -⟩ := hint.unique hint'
      rfl

/-- The integers of the condition fit in 64 bits. -/
def Cond.Holds (defines : Symbols) : Cond → Prop
  | .int negative digits => int64.Holds (integer negative digits)
  | .symbol name => ∀ (text : String) (i : Int), defines.lookup name = some (some text) →
      IsValue text.toList (.int i) → int64.Holds i
  | .not e => e.Holds defines
  | .join _ a b | .compare _ a b => a.Holds defines ∧ b.Holds defines
  | .defined _ | .bool _ => True

section
variable {defines : Symbols}

theorem Cond.Holds.integer {e : Cond} {i : Int} (h : e.Holds defines)
    (hi : Denotes (written defines) e (.int i)) : int64.Holds i := by
  cases hi with
  | int => exact h
  | symbol hv =>
    obtain ⟨text, htext, hv⟩ := hv
    exact h text i htext hv

theorem Cond.Holds.stays {e : Cond} (h : e.Holds defines) : ¬ e.Turns defines := by
  induction e with
  | not e ih => exact ih h
  | join j a b iha ihb =>
    rintro (⟨ha, -, -⟩ | ⟨-, hb, -⟩ | ⟨ha, -, -⟩)
    · exact iha h.1 ha
    · exact ihb h.2 hb
    · exact iha h.1 ha
  | compare op a b iha ihb =>
    rintro ((⟨ha, -⟩ | ⟨hb, -⟩) | ⟨x, y, hx, hy, hne⟩)
    · exact iha h.1 ha
    · exact ihb h.2 hb
    · rw [int64.reduce_of_holds (h.1.integer hx), int64.reduce_of_holds (h.2.integer hy)] at hne
      exact hne rfl
  | _ => exact id

theorem Denotes.written_unique {e : Cond} {v w : Value} (hv : Denotes (written defines) e v)
    (hw : Denotes (written defines) e w) : v = w := by
  refine hv.unique ?_ hw
  rintro name v w ⟨text, htext, hvalue⟩ ⟨text', htext', hvalue'⟩
  rw [htext] at htext'
  cases htext'
  exact hvalue'.unique hvalue

theorem Denotes.boolean_iff {e : Cond} {b c : Bool} (h : Denotes (written defines) e (.bool b)) :
    Denotes (written defines) e (.bool c) ↔ b = c := by
  refine ⟨fun hc => ?_, fun hc => hc ▸ h⟩
  cases h.written_unique hc
  rfl

theorem Denotes.integer {e : Cond} {i : Int} (h : Denotes (written defines) e (.int i))
    (hn : e.Numerals) :
    Denotes (reading defines) e (.int (int64.reduce i)) ∧ ¬ e.Turns defines := by
  cases h with
  | int => exact ⟨readInteger_eq _ hn ▸ .int, id⟩
  | symbol hv =>
    obtain ⟨text, htext, hv⟩ := hv
    exact ⟨.symbol ⟨text, htext, macroValue_of_isValue hv⟩, id⟩

/-- The evaluator gives a condition the other value exactly where it turns. -/
theorem Denotes.turns_iff {e : Cond} {v : Value} (h : Denotes (written defines) e v)
    (hn : e.Numerals) {b : Bool} (hv : v = .bool b) :
    ∃ c, Denotes (reading defines) e (.bool c) ∧ (c ≠ b ↔ e.Turns defines) := by
  induction h generalizing b with
  | defined =>
    cases hv
    exact ⟨_, .defined, by simp [Cond.Turns, written, reading]⟩
  | bool =>
    cases hv
    exact ⟨_, .bool, by simp [Cond.Turns]⟩
  | int => cases hv
  | symbol hvalue =>
    cases hv
    obtain ⟨text, htext, hvalue⟩ := hvalue
    exact ⟨b, .symbol ⟨text, htext, macroValue_of_isValue hvalue⟩, by simp [Cond.Turns]⟩
  | not _ ih =>
    cases hv
    obtain ⟨c, hc, hturns⟩ := ih hn rfl
    exact ⟨!c, .not hc, by rw [Cond.Turns, ← hturns, ne_eq, ne_eq, Bool.not_inj_iff]⟩
  | @join j a e x y ha hb iha ihb =>
    cases hv
    obtain ⟨x', hx', hturns⟩ := iha hn.1 rfl
    obtain ⟨y', hy', hturns'⟩ := ihb hn.2 rfl
    refine ⟨_, .join hx' hy', (j.apply_ne_iff x y x' y').trans ?_⟩
    have hsame : (∃ z, Denotes (written defines) a (.bool z) ∧
        Denotes (written defines) e (.bool z)) ↔ x = y := by
      simp only [ha.boolean_iff, hb.boolean_iff]
      exact ⟨fun ⟨z, hx, hy⟩ => hx.trans hy.symm, fun hxy => ⟨y, hxy, rfl⟩⟩
    rw [Cond.Turns, hsame, ha.boolean_iff, hb.boolean_iff, hturns, hturns']
  | bools hf ha hb iha ihb =>
    cases hv
    obtain ⟨x', hx', hturns⟩ := iha hn.1 rfl
    obtain ⟨y', hy', hturns'⟩ := ihb hn.2 rfl
    refine ⟨_, .bools hf hx' hy', (RelOp.bools_ne_iff hf _ _ x' y').trans ?_⟩
    rw [Cond.Turns, hturns, hturns']
    refine (or_iff_left ?_).symm
    rintro ⟨i, k, hi, -, -⟩
    cases ha.written_unique hi
  | @ints op _ _ x y ha hb =>
    cases hv
    obtain ⟨hx, hturns⟩ := ha.integer hn.1
    obtain ⟨hy, hturns'⟩ := hb.integer hn.2
    refine ⟨_, .ints hx hy, ?_⟩
    rw [Cond.Turns, or_iff_right (by simp [Xor, hturns, hturns'])]
    refine ⟨fun hne => ⟨x, y, ha, hb, hne⟩, ?_⟩
    rintro ⟨i, k, hi, hk, hne⟩
    cases ha.written_unique hi
    cases hb.written_unique hk
    exact hne

end

/-- The evaluator accepts exactly the grammar and gives its meaning where a condition whose
operands fit is written with no symbol whose text goes on behind a boolean word, and with no
integer beyond 64 bits that turns its value. -/
theorem meets_iff (defines : Symbols) (expr : List Char) :
    Meets defines expr ↔ ∀ e : Cond, e.IsText expr → HasKind defines e .boolean →
      e.Whole defines ∧ ¬ e.Turns defines := by
  constructor
  · intro hmeets e htext hkind
    obtain ⟨v, hv, hbool⟩ := hkind.reading
    obtain ⟨b, rfl⟩ := Value.of_boolean hbool
    obtain ⟨e', htext', hvalue⟩ := (hmeets b).mp (eval_iff.mpr ⟨e, htext, hv⟩)
    obtain rfl := htext.unique htext'
    obtain ⟨c, hc, hturns⟩ := hvalue.turns_iff (Spells.numerals htext trivial) rfl
    cases hv.reading_unique hc
    exact ⟨hvalue.whole, fun h => hturns.mpr h rfl⟩
  · intro h b
    rw [eval_iff]
    constructor
    · rintro ⟨e, htext, hv⟩
      obtain ⟨hwhole, hstays⟩ := h e htext hv.hasKind
      obtain ⟨w, hw, hbool⟩ := hv.hasKind.written hwhole
      obtain ⟨c, rfl⟩ := Value.of_boolean hbool
      obtain ⟨d, hd, hturns⟩ := hw.turns_iff (Spells.numerals htext trivial) rfl
      cases hv.reading_unique hd
      have hsame : b = c := by
        by_contra hne
        exact hstays (hturns.mp hne)
      exact ⟨e, htext, hsame ▸ hw⟩
    · rintro ⟨e, htext, hw⟩
      obtain ⟨d, hd, hturns⟩ := hw.turns_iff (Spells.numerals htext trivial) rfl
      have hstays := (h e htext hd.hasKind).2
      have hsame : d = b := by
        by_contra hne
        exact hstays (hturns.mp hne)
      exact ⟨e, htext, hsame ▸ hd⟩

theorem Spells.number {negative : Bool} {digits src rest : List Char}
    (h : HasNumeral negative digits src rest) :
    Spells (.chain .or) src (.int negative digits) rest :=
  .chain (.chain (.primary (.int h)) .done) .done

/-- The comparison of two integers is a condition. -/
theorem Spells.comparison {op : RelOp} {negative negative' : Bool}
    {digits digits' src s₁ s₂ : List Char} (h : HasNumeral negative digits src s₁)
    (hop : HasRelop op s₁ s₂) (h' : HasNumeral negative' digits' s₂ []) :
    Spells .expr src (.compare op (.int negative digits) (.int negative' digits')) [] :=
  .compare (.number h) hop (.number h')

/-- To the evaluator `18446744073709551616` is zero. -/
theorem not_meets : ¬ Meets ∅ "18446744073709551616=0".toList := by
  intro h
  have hleft : HasNumeral false "18446744073709551616".toList
      "18446744073709551616=0".toList ['=', '0'] :=
    hasNumeral_iff.mpr ⟨by decide, by decide, by decide, by decide⟩
  have hright : HasNumeral false ['0'] ['0'] [] :=
    hasNumeral_iff.mpr ⟨by decide, by decide, by decide, by decide⟩
  have hop : HasRelop .eq ['=', '0'] ['0'] := ⟨['0'], rfl, nofun, nofun, rfl⟩
  have hvalue : Denotes (written ∅) (.compare .eq (.int false "18446744073709551616".toList)
      (.int false ['0'])) (.bool false) := @Denotes.ints _ .eq _ _ _ _ .int .int
  have heval : eval ∅ "18446744073709551616=0".toList = .ok true := by decide +kernel
  have hfalse := heval.symm.trans ((h false).mpr ⟨_, .comparison hleft hop hright, hvalue⟩)
  simp at hfalse

theorem hasWord_front {word behind : List Char} (hlower : word.map Char.toLower = word)
    (hbehind : ∀ c ∈ behind.head?, isWordChar c = false) :
    HasWord word (word ++ behind) (afterBlanks behind) :=
  ⟨word, behind, rfl, hlower, hbehind, rfl⟩

theorem afterBlanks_blank (src : List Char) : afterBlanks (' ' :: src) = afterBlanks src :=
  List.dropWhile_cons_of_pos rfl

/-- `1 and true and` an integer: refused at the first operand, whatever the last one is. -/
def refusedText (digits : List Char) : List Char :=
  '1' :: ' ' :: (Joint.and.word ++ ' ' :: (wordTrue ++ ' ' :: (Joint.and.word ++ ' ' :: digits)))

theorem refusedText_isText {digits : List Char} (hne : digits ≠ [])
    (hdigits : ∀ c ∈ digits, c.isDigit = true) :
    (Cond.join .and (.join .and (.int false ['1']) (.bool true)) (.int false digits)).IsText
      (refusedText digits) := by
  have hlast : HasNumeral false digits digits [] :=
    ⟨[], [], by simp, .inr ⟨.inr rfl, rfl⟩, hne, hdigits, by simp, rfl⟩
  have hsame : afterBlanks digits = digits := by
    obtain ⟨d, hd, hcases⟩ := hlast.head
    obtain ⟨behind, rfl⟩ := List.head?_eq_some_iff.mp hd
    apply afterBlanks_of_head
    rcases hcases with rfl | rfl | hdigit
    · rfl
    · rfl
    · rw [isBlank, Bool.or_eq_false_iff, decide_eq_false_iff_not, decide_eq_false_iff_not]
      constructor <;> (rintro rfl; contradiction)
  have hone (rest : List Char) : HasNumeral false ['1'] ('1' :: ' ' :: rest) (afterBlanks rest) :=
    ⟨[], ' ' :: rest, rfl, .inr ⟨.inr rfl, rfl⟩, by simp, by simp, by simp,
      (afterBlanks_blank rest).symm⟩
  have hand (rest : List Char) :
      HasWord Joint.and.word (Joint.and.word ++ ' ' :: rest) (afterBlanks rest) :=
    afterBlanks_blank rest ▸ hasWord_front (by decide) (by simp [isWordChar])
  have htrue (rest : List Char) :
      HasWord wordTrue (wordTrue ++ ' ' :: rest) (afterBlanks rest) :=
    afterBlanks_blank rest ▸ hasWord_front (by decide) (by simp [isWordChar])
  have hlong : HasWord Joint.and.word (Joint.and.word ++ ' ' :: digits) digits := by
    have h := hand digits
    rwa [hsame] at h
  exact .simple (.chain (.chain (.primary (.int (hone _))) (.more (hand _)
    (.primary (.wordTrue (htrue _))) (.more hlong (.primary (.int hlast)) .done))) .done)

/-- An integer that is never read does no harm. -/
theorem meets_small :
    Meets ∅ "2<10".toList ∧ Meets ∅ (refusedText (List.replicate 20 '9')) := by
  constructor
  · refine (meets_iff ∅ _).mpr fun e htext _ => ?_
    have hleft : HasNumeral false ['2'] "2<10".toList ['<', '1', '0'] :=
      hasNumeral_iff.mpr ⟨by decide, by decide, by decide, by decide⟩
    have hright : HasNumeral false ['1', '0'] ['1', '0'] [] :=
      hasNumeral_iff.mpr ⟨by decide, by decide, by decide, by decide⟩
    have hop : HasRelop .lt ['<', '1', '0'] ['1', '0'] :=
      ⟨['1', '0'], rfl, fun _ => by decide, nofun, rfl⟩
    obtain rfl := Cond.IsText.unique (.comparison hleft hop hright) htext
    refine ⟨⟨trivial, trivial⟩, Cond.Holds.stays ⟨?_, ?_⟩⟩
    · have hholds : int64.Holds (integer false ['2']) := by decide
      exact hholds
    · have hholds : int64.Holds (integer false ['1', '0']) := by decide
      exact hholds
  · refine (meets_iff ∅ _).mpr fun e htext hkind => ?_
    have hdigits : ∀ c ∈ List.replicate 20 '9', c.isDigit = true := by
      intro c hc
      rw [List.eq_of_mem_replicate hc]
      rfl
    obtain rfl := (refusedText_isText (by simp) hdigits).unique htext
    cases hkind with
    | join hleft _ =>
      cases hleft with
      | join hone _ => cases hone

end Tp2cc.IfExpr
