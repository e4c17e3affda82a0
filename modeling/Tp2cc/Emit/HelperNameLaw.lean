import Tp2cc.Emit.HelperName
import Tp2cc.Emit.StringLiteral
import Tp2cc.Parsing.Readable

set_option autoImplicit false

namespace Tp2cc.HelperName
open Parsing

/-- The word in front of the code of a type. -/
inductive Head where
  | leaf (word : LeafWord)
  | string
  | unary (word : UnaryWord)
  | array (dims : Nat)
  | named (word : NameWord)
  | procedural (isMethod : Bool)
  deriving DecidableEq

def LeafWord.text : LeafWord → String
  | .unbound => "unbound"
  | .record => "record"
  | .classType => "class"
  | .object => "object"
  | .interface => "interface"
  | .textFile => "text"
  | .enum => "enum"
  | .subrange => "subrange"
  | .void => "void"
  | .untyped => "untyped"

def UnaryWord.text : UnaryWord → String
  | .openarr => "openarr"
  | .dynarr => "dynarr"
  | .set => "set"
  | .file => "file"
  | .ptr => "ptr"
  | .distinct => "distinct"

def NameWord.text : NameWord → String
  | .name => "name"
  | .metaclass => "metaclass"

@[irreducible] def Head.text : Head → List Char
  | .leaf word => word.text.toList
  | .string => "string".toList
  | .unary word => word.text.toList
  | .array dims => "arr".toList ++ Nat.toDigits 10 dims
  | .named word => word.text.toList
  | .procedural isMethod => (if isMethod then "method" else "proc").toList

@[irreducible] def functionText (isFunction : Bool) : List Char := (if isFunction then "fn" else "proc").toList
@[irreducible] def modeText (mode : ParamMode) : List Char := (encodeHelperParamMode mode).toList
@[irreducible] def sizedText (sized : Bool) : List Char := (if sized then "_sized" else "").toList
@[irreducible] def noargsText : List Char := "noargs".toList
@[irreducible] def retText : List Char := "_ret_".toList

def encodeFolded (ch : Char) : List Char := if ch = '_' then ['_', 'u'] else [ch]

mutual

def Kept.code : Kept → List Char
  | .leaf word => (Head.leaf word).text
  | .string sized => Head.string.text ++ sizedText sized
  | .unary word inner => (Head.unary word).text ++ '_' :: inner.code
  | .array dims element => (Head.array dims).text ++ '_' :: element.code
  | .named word name => (Head.named word).text ++ '_' :: name.flatMap encodeFolded
  | .procedural isMethod isFunction params result =>
    (Head.procedural isMethod).text ++ '_' :: (functionText isFunction ++
      '_' :: (params.code ++ (retText ++ result.code)))

def KeptParams.code : KeptParams → List Char
  | .nil => noargsText
  | .cons mode type rest => modeText mode ++ '_' :: (type.code ++ rest.more)

def KeptParams.more : KeptParams → List Char
  | .nil => []
  | .cons mode type rest => '_' :: (modeText mode ++ '_' :: (type.code ++ rest.more))

end

section
variable {ρ : Type}

theorem isIdentCont_cases {c : Char} (h : isIdentCont c = true) :
    (65 ≤ c.toNat ∧ c.toNat ≤ 90) ∨ (97 ≤ c.toNat ∧ c.toNat ≤ 122) ∨ c = '_' ∨
      (48 ≤ c.toNat ∧ c.toNat ≤ 57) := by
  have hupper : c.isUpper = decide (65 ≤ c.val ∧ c.val ≤ 90) := rfl
  have hlower : c.isLower = (decide (97 ≤ c.val) && decide (c.val ≤ 122)) := rfl
  have hdigit : c.isDigit = (decide (48 ≤ c.val) && decide (c.val ≤ 57)) := rfl
  have halpha : c.isAlpha = (c.isUpper || c.isLower) := rfl
  have hnat : c.toNat = c.val.toNat := rfl
  rw [isIdentCont, isIdentStart, halpha, hupper, hlower, hdigit] at h
  simp only [Bool.or_eq_true, Bool.and_eq_true, decide_eq_true_eq, UInt32.le_iff_toNat_le] at h
  rw [hnat]
  simpa [or_assoc] using h

theorem encodeChar_identifier {c : Char} (h : isIdentCont c = true) :
    encodeChar c = encodeFolded (foldChar c) := by
  have hline : '_'.toNat = 95 := rfl
  cases isIdentCont_cases h with
  | inl hupper =>
    have hne : Char.ofNat (c.toNat-65+97) ≠ '_' := by
      intro heq
      have hnat := congrArg Char.toNat heq
      rw [ofNat_toNat_ascii _ (by omega), hline] at hnat
      omega
    rw [encodeChar, if_pos hupper, foldChar, if_pos hupper, encodeFolded, if_neg hne]
  | inr h =>
    have hupper : ¬ (65 ≤ c.toNat ∧ c.toNat ≤ 90) := by
      intro hupper
      cases h with
      | inl hlower => omega
      | inr h =>
        cases h with
        | inl h =>
          rw [h, hline] at hupper
          omega
        | inr hdigit => omega
    rw [encodeChar, if_neg hupper, foldChar, if_neg hupper, encodeFolded]
    by_cases hc : c = '_'
    · rw [hc]
      decide
    · rw [if_pos (h.imp_right fun h => h.resolve_left hc), if_neg hc]

theorem encodeHelperIdent_eq {name : String} (hne : name.toList ≠ [])
    (h : ∀ c ∈ name.toList, isIdentCont c = true) :
    (encodeHelperIdent name).toList = (foldName name).flatMap encodeFolded := by
  have hname : name ≠ "" := by
    intro hempty
    exact hne (by rw [hempty]; rfl)
  rw [encodeHelperIdent, if_neg hname, String.toList_ofList, foldName, List.flatMap_map]
  generalize name.toList = cs at h
  induction cs with
  | nil => rfl
  | cons c cs ih =>
    rw [List.flatMap_cons, List.flatMap_cons, encodeChar_identifier (h c List.mem_cons_self),
      ih fun d hd => h d (List.mem_cons_of_mem c hd)]

theorem metaclassCode_eq (target : TypeSymbol ⊕ ρ) : (metaclassCode target).toList =
    "metaclass".toList ++ '_' :: (foldName (metaclassName target)).flatMap encodeFolded := by
  cases target with
  | inl target =>
    simp [metaclassCode, metaclassName, encodeHelperIdent_eq target.ne_empty target.identifier]
  | inr => simp [metaclassCode, metaclassName, foldName, foldChar, encodeFolded]

theorem ne_empty_of_toList {s : String} (h : s.toList ≠ []) : s ≠ "" := by
  intro hs
  exact h (by rw [hs]; rfl)

theorem append_ne_empty (mode : ParamMode) (out typeCode : String) :
    out ++ encodeHelperParamMode mode ++ "_" ++ typeCode ≠ "" :=
  ne_empty_of_toList (by simp)

theorem repeatParam_more {typeCode : String} {type : Kept} (h : typeCode.toList = type.code)
    (mode : ParamMode) (n : Nat) (rest : KeptParams) {out : String} (hout : out ≠ "") :
    (repeatParam mode typeCode n out).toList ++ rest.more =
      out.toList ++ (KeptParams.push mode type n rest).more := by
  induction n generalizing out with
  | zero => rfl
  | succ n ih =>
    rw [repeatParam, if_pos hout, ih (append_ne_empty mode _ typeCode)]
    simp [KeptParams.push, KeptParams.more, modeText, h]

theorem repeatParam_ne_empty (mode : ParamMode) (typeCode : String) (n : Nat) {out : String}
    (hout : out ≠ "") : repeatParam mode typeCode n out ≠ "" := by
  induction n generalizing out with
  | zero => exact hout
  | succ n ih =>
    rw [repeatParam, if_pos hout]
    exact ih (append_ne_empty mode _ typeCode)

theorem exists_repeats (names : List String) : ∃ n, repeats names = n+1 := by
  cases names with
  | nil => exact ⟨0, rfl⟩
  | cons name names => exact ⟨names.length, by simp [repeats]⟩

def BoundType.Encodes (t : BoundType ρ) : Prop := (encodeHelperType t).toList = t.kept.code

/-- The loop from its start, and behind other parameters. -/
def BoundParams.Encodes (params : BoundParams ρ) : Prop :=
  (orNoargs params (paramLoop params "")).toList = params.kept.code ∧
    ∀ {out : String}, out ≠ "" → (paramLoop params out).toList = out.toList ++ params.kept.more

def OptionEncodes (type : Option (BoundType ρ)) : Prop :=
  ∀ none : LeafWord, (codeOr none.text type).toList = (keptOr none type).code

theorem encodes_nil : (BoundParams.nil : BoundParams ρ).Encodes := by
  simp [BoundParams.Encodes, orNoargs, paramLoop, BoundParams.kept, KeptParams.code,
    KeptParams.more, noargsText]

theorem encodes_none : OptionEncodes (none : Option (BoundType ρ)) := by
  intro word
  simp [codeOr, keptOr, Kept.code, Head.text]

theorem encodes_some {t : BoundType ρ} (h : t.Encodes) : OptionEncodes (some t) := by
  intro word
  rw [codeOr, keptOr]
  exact h

theorem encodes_cons (mode : ParamMode) (names : List String) {type : Option (BoundType ρ)}
    {rest : BoundParams ρ} (h : OptionEncodes type) (hrest : rest.Encodes) :
    (BoundParams.cons mode names type rest).Encodes := by
  have hcode : (codeOr "untyped" type).toList = (keptOr .untyped type).code := h .untyped
  constructor
  · obtain ⟨n, hn⟩ := exists_repeats names
    have hfirst := append_ne_empty mode "" (codeOr "untyped" type)
    rw [orNoargs, paramLoop, BoundParams.kept, hn, repeatParam, if_neg (by simp),
      hrest.2 (repeatParam_ne_empty mode (codeOr "untyped" type) n hfirst),
      repeatParam_more hcode mode n rest.kept hfirst]
    simp [KeptParams.push, KeptParams.code, modeText, hcode]
  · intro out hout
    rw [paramLoop, BoundParams.kept,
      hrest.2 (repeatParam_ne_empty mode (codeOr "untyped" type) _ hout),
      repeatParam_more hcode mode _ rest.kept hout]

theorem encodes (t : BoundType ρ) : t.Encodes := by
  apply @BoundType.rec ρ BoundType.Encodes BoundParams.Encodes OptionEncodes
  case owned =>
    intro symbol
    simp [BoundType.Encodes, encodeHelperType, BoundType.kept, Kept.code, Head.text, NameWord.text,
      encodeHelperIdent_eq symbol.ne_empty symbol.identifier]
  case tyArray =>
    intro kind dims element isPacked h
    have hvoid : (codeOr "void" element).toList = (keptOr .void element).code := h .void
    cases kind <;> simp [BoundType.Encodes, encodeHelperType, BoundType.kept, Kept.code, Head.text,
      UnaryWord.text, hvoid]
  case tyObject =>
    intro isReferenceType declaration
    cases isReferenceType <;>
      simp [BoundType.Encodes, encodeHelperType, BoundType.kept, Kept.code, Head.text, LeafWord.text]
  case tySet | tyDistinct =>
    intro element h
    rw [BoundType.Encodes] at h
    simp [BoundType.Encodes, encodeHelperType, BoundType.kept, Kept.code, Head.text,
      UnaryWord.text, h]
  case tyFile =>
    intro element isText h
    have huntyped : (codeOr "untyped" element).toList = (keptOr .untyped element).code := h .untyped
    cases isText <;> simp [BoundType.Encodes, encodeHelperType, BoundType.kept, Kept.code,
      Head.text, UnaryWord.text, LeafWord.text, huntyped]
  case tyPointer =>
    intro target h
    have hvoid : (codeOr "void" target).toList = (keptOr .void target).code := h .void
    simp [BoundType.Encodes, encodeHelperType, BoundType.kept, Kept.code, Head.text,
      UnaryWord.text, hvoid]
  case tyProcedural =>
    intro isFunction params returnType isCdecl isMethod hparams h
    have hvoid : (codeOr "void" returnType).toList = (keptOr .void returnType).code := h .void
    cases isFunction <;> cases isMethod <;>
      simp [BoundType.Encodes, encodeHelperType, BoundType.kept, Kept.code, Head.text,
        functionText, retText, LeafWord.text, hparams.1, hvoid]
  case tyString =>
    intro maxLength
    cases maxLength <;> simp [BoundType.Encodes, encodeHelperType, BoundType.kept, Kept.code,
      Head.text, sizedText]
  case tyMetaclass =>
    intro target
    simp [BoundType.Encodes, encodeHelperType, BoundType.kept, Kept.code, Head.text, NameWord.text,
      metaclassCode_eq]
  case nil => exact encodes_nil
  case cons =>
    intro mode names type rest h hrest
    exact encodes_cons mode names h hrest
  case none => exact encodes_none
  case some =>
    intro t h
    exact encodes_some h
  all_goals
    simp [BoundType.Encodes, encodeHelperType, BoundType.kept, Kept.code, Head.text, LeafWord.text]

end

def words : List Head :=
  [.leaf .unbound, .leaf .record, .leaf .classType, .leaf .object, .leaf .interface, .leaf .textFile,
    .leaf .enum, .leaf .subrange, .leaf .void, .leaf .untyped, .string, .unary .openarr,
    .unary .dynarr, .unary .set, .unary .file, .unary .ptr, .unary .distinct, .named .name,
    .named .metaclass, .procedural true, .procedural false]

theorem mem_words (h : Head) : h ∈ words ∨ ∃ dims, h = .array dims := by
  cases h with
  | leaf word => left; cases word <;> decide
  | string => left; decide
  | unary word => left; cases word <;> decide
  | array dims => exact .inr ⟨dims, rfl⟩
  | named word => left; cases word <;> decide
  | procedural isMethod => left; cases isMethod <;> decide

theorem words_text : ∀ h ∈ words, '_' ∉ h.text ∧ h.text.take 3 ≠ ['a', 'r', 'r'] ∧
    ∀ h' ∈ words, h.text = h'.text → h = h' := by decide +kernel

theorem array_text (dims : Nat) : (Head.array dims).text = 'a' :: 'r' :: 'r' :: Nat.toDigits 10 dims := by
  rw [Head.text]
  rfl

theorem Head.text_line (h : Head) : '_' ∉ h.text := by
  cases mem_words h with
  | inl h => exact (words_text _ h).1
  | inr h =>
    obtain ⟨dims, rfl⟩ := h
    rw [array_text]
    simp [Nat.underscore_not_in_toDigits]

theorem Head.text_injective : Function.Injective Head.text := by
  intro h h' heq
  cases mem_words h with
  | inl hmem =>
    cases mem_words h' with
    | inl hmem' => exact (words_text h hmem).2.2 h' hmem' heq
    | inr harray =>
      obtain ⟨dims, rfl⟩ := harray
      exact absurd (by rw [heq, array_text]; rfl) (words_text h hmem).2.1
  | inr harray =>
    obtain ⟨dims, rfl⟩ := harray
    cases mem_words h' with
    | inl hmem' => exact absurd (by rw [← heq, array_text]; rfl) (words_text h' hmem').2.1
    | inr harray =>
      obtain ⟨dims', rfl⟩ := harray
      rw [array_text, array_text] at heq
      have hdigits : Nat.toDigits 10 dims = Nat.toDigits 10 dims' := by simpa using heq
      have hnat := congrArg (fun digits => Nat.ofDigitChars 10 digits 0) hdigits
      simp only [Nat.ofDigitChars_ten_toDigits] at hnat
      rw [hnat]

theorem head_readable : Readable Head.text (OpensAt '_') :=
  .segment Head.text_injective Head.text_line

theorem modeText_injective : Function.Injective modeText := by
  intro m m' h
  cases m <;> cases m' <;> simp [modeText, encodeHelperParamMode] at h ⊢

theorem mode_readable : Readable modeText (OpensAt '_') := by
  apply Readable.segment modeText_injective
  intro m
  cases m <;> simp [modeText, encodeHelperParamMode]

theorem function_readable : Readable functionText (OpensAt '_') := by
  apply Readable.segment
  · intro f f' h
    cases f <;> cases f' <;> simp [functionText] at h ⊢
  · intro f
    cases f <;> simp [functionText]

def Follows (rest : List Char) : Prop :=
  rest = [] ∨ ∃ c behind, rest = '_' :: c :: behind ∧ c ≠ 'u' ∧ c ≠ 's'

theorem Follows.opens {r : List Char} (h : Follows r) : OpensAt '_' r := by
  cases h with
  | inl h => rw [h]; exact opensAt_nil '_'
  | inr h =>
    obtain ⟨c, behind, hr, -⟩ := h
    rw [hr]
    exact opensAt_cons '_' _

theorem encodeFolded_readable : Readable encodeFolded fun _ => True := by
  intro c d r s _ _ h
  by_cases hc : c = '_' <;> by_cases hd : d = '_' <;>
    simp only [encodeFolded, hc, hd, if_true, if_false, List.cons_append, List.nil_append,
      List.cons.injEq, true_and] at h ⊢
  · exact h
  · exact absurd h.1.symm hd
  · exact h.1.elim
  · exact h

theorem name_readable : Readable (List.flatMap encodeFolded) Follows := by
  apply encodeFolded_readable.flatMap
  intro c r h
  cases h with
  | inl h => by_cases hc : c = '_' <;> simp [encodeFolded, hc] at h
  | inr h =>
    obtain ⟨d, behind, hr, hu, -⟩ := h
    by_cases hc : c = '_'
    · simp [encodeFolded, hc] at hr
      exact hu hr.1.symm
    · simp [encodeFolded, hc] at hr

def Kept.Reads (k : Kept) : Prop :=
  ∀ k' r s, Follows r → Follows s → k.code ++ r = k'.code ++ s → k = k' ∧ r = s

def KeptParams.Reads (ps : KeptParams) : Prop :=
  ∀ ps' r s, (ps.code ++ (retText ++ r) = ps'.code ++ (retText ++ s) → ps = ps' ∧ r = s) ∧
    (ps.more ++ (retText ++ r) = ps'.more ++ (retText ++ s) → ps = ps' ∧ r = s)

theorem retText_follows (r : List Char) : Follows (retText ++ r) :=
  .inr ⟨'r', "et_".toList ++ r, by simp [retText], by decide, by decide⟩

theorem modeText_head (mode : ParamMode) :
    ∃ c behind, modeText mode = c :: behind ∧ c ≠ 'u' ∧ c ≠ 's' ∧ c ≠ 'r' ∧ c ≠ 'n' := by
  cases mode <;> simp [modeText, encodeHelperParamMode]

theorem more_follows (ps : KeptParams) (r : List Char) : Follows (ps.more ++ (retText ++ r)) := by
  cases ps with
  | nil => exact retText_follows r
  | cons mode type rest =>
    obtain ⟨c, behind, hmode, hu, hs, -, -⟩ := modeText_head mode
    exact .inr ⟨c, _, by rw [KeptParams.more, hmode]; rfl, hu, hs⟩

theorem reads_param {type type' : Kept} {rest rest' : KeptParams} (htype : type.Reads)
    (hrest : rest.Reads) {mode mode' : ParamMode} {r s : List Char}
    (h : modeText mode ++ '_' :: (type.code ++ (rest.more ++ (retText ++ r))) =
      modeText mode' ++ '_' :: (type'.code ++ (rest'.more ++ (retText ++ s)))) :
    KeptParams.cons mode type rest = .cons mode' type' rest' ∧ r = s := by
  obtain ⟨hmode, htail⟩ := mode_readable mode mode' _ _ (opensAt_cons '_' _) (opensAt_cons '_' _) h
  obtain ⟨hkept, hmore⟩ := htype type' _ _ (more_follows rest r) (more_follows rest' s)
    (List.cons.inj htail).2
  obtain ⟨hparams, hr⟩ := (hrest rest' r s).2 hmore
  exact ⟨by rw [hmode, hkept, hparams], hr⟩

theorem reads_nil : KeptParams.nil.Reads := by
  intro ps' r s
  cases ps' with
  | nil =>
    constructor
    · intro h
      exact ⟨rfl, List.append_cancel_left (List.append_cancel_left h)⟩
    · intro h
      exact ⟨rfl, List.append_cancel_left (List.append_cancel_left h)⟩
  | cons mode type rest =>
    obtain ⟨c, behind, hmode, -, -, hr, hn⟩ := modeText_head mode
    constructor
    · intro h
      rw [KeptParams.code, KeptParams.code, hmode, noargsText] at h
      exact absurd (List.cons.inj h).1.symm hn
    · intro h
      rw [KeptParams.more, KeptParams.more, hmode, retText] at h
      exact absurd (List.cons.inj (List.cons.inj h).2).1.symm hr

theorem reads_cons {type : Kept} {rest : KeptParams} (mode : ParamMode) (htype : type.Reads)
    (hrest : rest.Reads) : (KeptParams.cons mode type rest).Reads := by
  intro ps' r s
  cases ps' with
  | nil =>
    have hnil := reads_nil (.cons mode type rest) s r
    constructor
    · intro h
      exact absurd (hnil.1 h.symm).1 (by simp)
    · intro h
      exact absurd (hnil.2 h.symm).1 (by simp)
  | cons mode' type' rest' =>
    constructor
    · intro h
      apply reads_param htype hrest
      simpa [KeptParams.code] using h
    · intro h
      apply reads_param htype hrest
      simpa [KeptParams.more] using h

def Kept.head : Kept → Head
  | .leaf word => .leaf word
  | .string _ => .string
  | .unary word _ => .unary word
  | .array dims _ => .array dims
  | .named word _ => .named word
  | .procedural isMethod .. => .procedural isMethod

def Kept.tail : Kept → List Char
  | .leaf _ => []
  | .string sized => sizedText sized
  | .unary _ inner => '_' :: inner.code
  | .array _ element => '_' :: element.code
  | .named _ name => '_' :: name.flatMap encodeFolded
  | .procedural _ isFunction params result =>
    '_' :: (functionText isFunction ++ '_' :: (params.code ++ (retText ++ result.code)))

theorem Kept.code_eq (k : Kept) : k.code = k.head.text ++ k.tail := by
  cases k <;> simp [Kept.code, Kept.head, Kept.tail]

theorem Kept.tail_opens (k : Kept) {r : List Char} (h : Follows r) : OpensAt '_' (k.tail ++ r) := by
  cases k with
  | leaf => exact h.opens
  | string sized =>
    cases sized with
    | false => simpa [Kept.tail, sizedText] using h.opens
    | true => simp [Kept.tail, sizedText, OpensAt]
  | unary | array | named | procedural => exact opensAt_cons '_' _

theorem Kept.reads_of_tail {k : Kept}
    (h : ∀ k' r s, Follows r → Follows s → k.head = k'.head → k.tail ++ r = k'.tail ++ s →
      k = k' ∧ r = s) : k.Reads := by
  intro k' r s hr hs heq
  rw [Kept.code_eq, Kept.code_eq, List.append_assoc, List.append_assoc] at heq
  obtain ⟨hhead, htail⟩ := head_readable _ _ _ _ (k.tail_opens hr) (k'.tail_opens hs) heq
  exact h k' r s hr hs hhead htail

theorem not_follows_sized (r : List Char) : ¬ Follows (sizedText true ++ r) := by
  intro h
  cases h with
  | inl h => simp [sizedText] at h
  | inr h =>
    obtain ⟨c, behind, hr, -, hs⟩ := h
    rw [sizedText] at hr
    exact hs (List.cons.inj (List.cons.inj hr).2).1.symm

theorem reads_string (sized : Bool) : (Kept.string sized).Reads := by
  apply Kept.reads_of_tail
  intro k' r s hr hs hhead htail
  cases k' with
  | string sized' =>
    have hnone : sizedText false = [] := by simp [sizedText]
    rw [Kept.tail, Kept.tail] at htail
    cases sized <;> cases sized'
    · exact ⟨rfl, List.append_cancel_left htail⟩
    · rw [hnone, List.nil_append] at htail
      exact absurd (htail ▸ hr) (not_follows_sized s)
    · rw [hnone, List.nil_append] at htail
      exact absurd (htail ▸ hs) (not_follows_sized r)
    · exact ⟨rfl, List.append_cancel_left htail⟩
  | leaf | unary | array | named | procedural => simp [Kept.head] at hhead

theorem reads_procedural (isMethod isFunction : Bool) {params : KeptParams} {result : Kept}
    (hparams : params.Reads) (hresult : result.Reads) :
    (Kept.procedural isMethod isFunction params result).Reads := by
  apply Kept.reads_of_tail
  intro k' r s hr hs hhead htail
  cases k' with
  | procedural isMethod' isFunction' params' result' =>
    simp only [Kept.head, Head.procedural.injEq] at hhead
    simp only [Kept.tail, List.cons_append, List.append_assoc, List.cons.injEq, true_and] at htail
    obtain ⟨hfunction, hrest⟩ := function_readable _ _ _ _ (opensAt_cons '_' _) (opensAt_cons '_' _) htail
    obtain ⟨hkept, hcode⟩ := (hparams params' _ _).1 (List.cons.inj hrest).2
    obtain ⟨hres, hend⟩ := hresult result' r s hr hs hcode
    exact ⟨by rw [hhead, hfunction, hkept, hres], hend⟩
  | leaf | string | unary | array | named => simp [Kept.head] at hhead

theorem reads (k : Kept) : k.Reads := by
  apply @Kept.rec Kept.Reads KeptParams.Reads
  case leaf =>
    intro word
    apply Kept.reads_of_tail
    intro k' r s hr hs hhead htail
    cases k' with
    | leaf word' =>
      simp only [Kept.head, Head.leaf.injEq] at hhead
      exact ⟨by rw [hhead], htail⟩
    | string | unary | array | named | procedural => simp [Kept.head] at hhead
  case string => exact reads_string
  case unary =>
    intro word inner ih
    apply Kept.reads_of_tail
    intro k' r s hr hs hhead htail
    cases k' with
    | unary word' inner' =>
      simp only [Kept.head, Head.unary.injEq] at hhead
      obtain ⟨hinner, hend⟩ := ih inner' r s hr hs (List.cons.inj htail).2
      exact ⟨by rw [hhead, hinner], hend⟩
    | leaf | string | array | named | procedural => simp [Kept.head] at hhead
  case array =>
    intro dims element ih
    apply Kept.reads_of_tail
    intro k' r s hr hs hhead htail
    cases k' with
    | array dims' element' =>
      simp only [Kept.head, Head.array.injEq] at hhead
      obtain ⟨helement, hend⟩ := ih element' r s hr hs (List.cons.inj htail).2
      exact ⟨by rw [hhead, helement], hend⟩
    | leaf | string | unary | named | procedural => simp [Kept.head] at hhead
  case named =>
    intro word name
    apply Kept.reads_of_tail
    intro k' r s hr hs hhead htail
    cases k' with
    | named word' name' =>
      simp only [Kept.head, Head.named.injEq] at hhead
      obtain ⟨hname, hend⟩ := name_readable name name' r s hr hs (List.cons.inj htail).2
      exact ⟨by rw [hhead, hname], hend⟩
    | leaf | string | unary | array | procedural => simp [Kept.head] at hhead
  case procedural =>
    intro isMethod isFunction params result hparams hresult
    exact reads_procedural isMethod isFunction hparams hresult
  case nil => exact reads_nil
  case cons =>
    intro mode type rest htype hrest
    exact reads_cons mode htype hrest

theorem reads_params : (ps : KeptParams) → ps.Reads
  | .nil => reads_nil
  | .cons mode type rest => reads_cons mode (reads type) (reads_params rest)

section
variable {ρ : Type}

theorem optionEncodes (type : Option (BoundType ρ)) : OptionEncodes type := by
  cases type with
  | none => exact encodes_none
  | some type => exact encodes_some (encodes type)

theorem encodeHelperParams_eq : (params : BoundParams ρ) → params.Encodes
  | .nil => encodes_nil
  | .cons mode names type rest =>
    encodes_cons mode names (optionEncodes type) (encodeHelperParams_eq rest)

def tokenWord : OperatorToken → String
  | .assign => "assign"
  | token => encodeHelperIdent token.text

theorem usesNamedHelper_iff (pd : OperatorDecl ρ) : pascalOperatorDeclUsesNamedHelper pd = true ↔
    pd.operatorToken = .assign ∨ pd.operatorToken = .div ∨ pd.operatorToken = .enumerator := by
  rw [pascalOperatorDeclUsesNamedHelper]
  generalize pd.operatorToken = token
  cases token <;> simp [pascalOperatorCxxToken]

theorem tokenWord_assign : tokenWord .assign = "assign" := by decide

theorem operatorAssign_eq : "tp2cc_operator_assign" = "tp2cc_operator_" ++ "assign" := by decide

theorem assignmentHelperName_eq (pd : OperatorDecl ρ) :
    pascalAssignmentOperatorHelperName pd = "tp2cc_operator_assign" ++ signatureText pd := rfl

theorem namedHelperName_eq (pd : OperatorDecl ρ) : pascalOperatorNamedHelperName pd =
    "tp2cc_operator_" ++ encodeHelperIdent pd.operatorToken.text ++ signatureText pd := rfl

theorem signatureText_def (pd : OperatorDecl ρ) : signatureText pd =
    "_params_" ++ encodeHelperParams pd.params ++ "_ret_" ++ codeOr "void" pd.returnType := rfl

theorem pascalOperatorDeclNameToCxx_eq {pd : OperatorDecl ρ}
    (h : pascalOperatorDeclUsesNamedHelper pd = true) : pascalOperatorDeclNameToCxx pd =
      "tp2cc_operator_" ++ tokenWord pd.operatorToken ++ signatureText pd := by
  by_cases hassign : pd.operatorToken = .assign
  · rw [pascalOperatorDeclNameToCxx, if_pos hassign, assignmentHelperName_eq, hassign,
      tokenWord_assign, ← operatorAssign_eq]
  · have hword : tokenWord pd.operatorToken = encodeHelperIdent pd.operatorToken.text := by
      generalize pd.operatorToken = token at hassign
      cases token <;> simp [tokenWord] at hassign ⊢
    rw [pascalOperatorDeclNameToCxx, if_neg hassign, if_pos h, namedHelperName_eq, hword]

theorem signatureText_eq (pd : OperatorDecl ρ) : (signatureText pd).toList =
    "_params_".toList ++ (pd.params.kept.code ++ (retText ++ (keptOr .void pd.returnType).code)) := by
  have hparams := (encodeHelperParams_eq pd.params).1
  have hreturn : (codeOr "void" pd.returnType).toList = (keptOr .void pd.returnType).code :=
    optionEncodes pd.returnType .void
  simp [signatureText_def, encodeHelperParams, retText, hparams, hreturn]

theorem tokenWord_readable {p q : OperatorDecl ρ}
    (hp : pascalOperatorDeclUsesNamedHelper p = true)
    (hq : pascalOperatorDeclUsesNamedHelper q = true) {r s : List Char}
    (h : (tokenWord p.operatorToken).toList ++ '_' :: r =
      (tokenWord q.operatorToken).toList ++ '_' :: s) :
    p.operatorToken = q.operatorToken ∧ r = s := by
  have hassign : (tokenWord .assign).toList = ['a', 's', 's', 'i', 'g', 'n'] := by decide
  have hdiv : (tokenWord .div).toList = ['d', 'i', 'v'] := by decide
  have henumerator : (tokenWord .enumerator).toList =
    ['e', 'n', 'u', 'm', 'e', 'r', 'a', 't', 'o', 'r'] := by decide
  obtain hp | hp | hp := (usesNamedHelper_iff p).mp hp <;>
    obtain hq | hq | hq := (usesNamedHelper_iff q).mp hq <;>
    rw [hp, hq] at h ⊢ <;> simp [hassign, hdiv, henumerator] at h ⊢ <;> exact h

/-- Two helpers have one name exactly when the names keep the same of the declarations. -/
theorem helperName_eq_iff {p q : OperatorDecl ρ} (hp : pascalOperatorDeclUsesNamedHelper p = true)
    (hq : pascalOperatorDeclUsesNamedHelper q = true) :
    pascalOperatorDeclNameToCxx p = pascalOperatorDeclNameToCxx q ↔ p.Alike q := by
  have hline : "_params_".toList = '_' :: "params_".toList := by decide
  rw [pascalOperatorDeclNameToCxx_eq hp, pascalOperatorDeclNameToCxx_eq hq, ← String.toList_inj]
  simp only [String.toList_append, signatureText_eq, List.append_assoc, List.append_cancel_left_eq,
    hline, List.cons_append]
  constructor
  · intro h
    obtain ⟨htoken, hrest⟩ := tokenWord_readable hp hq h
    obtain ⟨hparams, hresult⟩ := (reads_params p.params.kept _ _ _).1 (List.append_cancel_left hrest)
    have hkept := reads (keptOr .void p.returnType) (keptOr .void q.returnType) [] [] (.inl rfl)
      (.inl rfl) (by rw [hresult])
    exact ⟨htoken, hparams, hkept.1⟩
  · intro h
    obtain ⟨htoken, hparams, hresult⟩ := h
    rw [htoken, hparams, hresult]

/-- What the names are for: different operators have different helpers. -/
def NamesApart (p q : OperatorDecl ρ) : Prop :=
  p.signature ≠ q.signature → pascalOperatorDeclNameToCxx p ≠ pascalOperatorDeclNameToCxx q

theorem namesApart_iff {p q : OperatorDecl ρ} (hp : pascalOperatorDeclUsesNamedHelper p = true)
    (hq : pascalOperatorDeclUsesNamedHelper q = true) :
    NamesApart p q ↔ p.signature = q.signature ∨ ¬ p.Alike q := by
  rw [NamesApart, ← helperName_eq_iff hp hq]
  by_cases h : p.signature = q.signature <;> simp [h]

end

theorem tfoo_ne : "tfoo".toList ≠ [] := by decide
theorem tfoo_identifier : ∀ c ∈ "tfoo".toList, isIdentCont c = true := List.all_eq_true.mp rfl
theorem longint_ne : "longint".toList ≠ [] := by decide
theorem longint_identifier : ∀ c ∈ "longint".toList, isIdentCont c = true := List.all_eq_true.mp rfl

def tfooOf (unit : String) : TypeSymbol := ⟨unit, [], "tfoo", tfoo_ne, tfoo_identifier⟩

def longintSymbol : TypeSymbol := ⟨"system", [], "longint", longint_ne, longint_identifier⟩

def ofLongint (token : OperatorToken) (result : TypeSymbol) : OperatorDecl Unit :=
  ⟨token, .cons .const ["n"] (some (.owned longintSymbol)) .nil, some (.owned result)⟩

theorem namesApart_div :
    NamesApart (ofLongint .div longintSymbol) (ofLongint .enumerator longintSymbol) :=
  (namesApart_iff rfl rfl).mpr (.inr fun h => absurd h.1 (by decide))

/-- Two units may have a type of the same name. -/
theorem not_namesApart_tfoo :
    pascalOperatorDeclUsesNamedHelper (ofLongint .assign (tfooOf "unita")) = true ∧
      pascalOperatorDeclUsesNamedHelper (ofLongint .assign (tfooOf "unitb")) = true ∧
      ¬ NamesApart (ofLongint .assign (tfooOf "unita")) (ofLongint .assign (tfooOf "unitb")) := by
  refine ⟨rfl, rfl, ?_⟩
  intro h
  apply h
  · intro heq
    have hresult := congrArg Signature.returnType heq
    simp [ofLongint, OperatorDecl.signature, tfooOf, unnamedOption, BoundType.unnamed] at hresult
  · rfl

end Tp2cc.HelperName
