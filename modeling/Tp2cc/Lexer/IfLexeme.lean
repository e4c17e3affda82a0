import Tp2cc.Lexer.IfGrammar
import Tp2cc.Parsing.Chain
import Tp2cc.Parsing.Components
import Tp2cc.Parsing.Extending

set_option autoImplicit false

namespace Tp2cc.IfExpr
open Machine Parsing

@[simp] theorem afterBlanks_afterBlanks (src : List Char) :
    afterBlanks (afterBlanks src) = afterBlanks src := by
  unfold afterBlanks
  induction src with
  | nil => rfl
  | cons c src ih =>
    cases h : isBlank c with
    | true => rw [List.dropWhile_cons_of_pos h, ih]
    | false =>
      rw [List.dropWhile_cons_of_neg (by simp [h]), List.dropWhile_cons_of_neg (by simp [h])]

theorem afterBlanks_length (src : List Char) : (afterBlanks src).length ≤ src.length :=
  (List.dropWhile_sublist _).length_le

theorem afterBlanks_of_head {c : Char} {src : List Char} (h : isBlank c = false) :
    afterBlanks (c :: src) = c :: src := by
  rw [afterBlanks, List.dropWhile_cons_of_neg (by simp [h])]

def State.at (s : State) (src : List Char) : State := { s with src }

@[simp] theorem State.at_src (s : State) (src : List Char) : (s.at src).src = src := rfl
@[simp] theorem State.at_ok (s : State) (src : List Char) : (s.at src).ok = s.ok := rfl
@[simp] theorem State.at_at (s : State) (src src' : List Char) :
    (s.at src).at src' = s.at src' := rfl

/-- A parser that answers whether the lexeme is in front, and takes it. -/
structure Detects (p : IP Bool) (lexeme : List Char → List Char → Prop) : Prop where
  answer : ∀ s : State, (∃ src, p s = some (true, s.at src) ∧
      lexeme (afterBlanks s.src) (afterBlanks src) ∧ src.length < s.src.length) ∨
    p s = some (false, s.at (afterBlanks s.src)) ∧ ∀ rest, ¬ lexeme (afterBlanks s.src) rest
  unique : ∀ {src rest rest' : List Char}, lexeme src rest → lexeme src rest' → rest = rest'

section
variable {p : IP Bool} {lexeme : List Char → List Char → Prop} {s : State}

theorem Detects.yes (h : Detects p lexeme) {rest : List Char}
    (hl : lexeme (afterBlanks s.src) rest) :
    ∃ src, p s = some (true, s.at src) ∧ afterBlanks src = rest ∧ src.length < s.src.length := by
  rcases h.answer s with ⟨src, hp, hlex, hlt⟩ | ⟨-, hno⟩
  · exact ⟨src, hp, h.unique hlex hl, hlt⟩
  · exact absurd hl (hno rest)

theorem Detects.no (h : Detects p lexeme) (hl : ∀ rest, ¬ lexeme (afterBlanks s.src) rest) :
    p s = some (false, s.at (afterBlanks s.src)) := by
  rcases h.answer s with ⟨src, -, hlex, -⟩ | ⟨hp, -⟩
  · exact absurd hlex (hl _)
  · exact hp

end

section
variable {α : Type} {p : IP Bool} {lexeme : List Char → List Char → Prop} {q q' : IP α}
  {s : State} {x : α × State}

theorem Detects.branch (h : Detects p lexeme)
    (hrun : (p >>= fun b => if b = true then q else q') s = some x) :
    (∃ src, lexeme (afterBlanks s.src) (afterBlanks src) ∧ q (s.at src) = some x) ∨
      (∀ rest, ¬ lexeme (afterBlanks s.src) rest) ∧ q' (s.at (afterBlanks s.src)) = some x := by
  rcases h.answer s with ⟨src, hp, hlex, -⟩ | ⟨hp, hno⟩
  · rw [bind_of hp, if_pos rfl] at hrun
    exact .inl ⟨src, hlex, hrun⟩
  · rw [bind_of hp, if_neg (by simp)] at hrun
    exact .inr ⟨hno, hrun⟩

theorem Detects.branch_yes (h : Detects p lexeme) {rest : List Char}
    (hl : lexeme (afterBlanks s.src) rest) :
    ∃ src, (p >>= fun b => if b = true then q else q') s = q (s.at src) ∧
      afterBlanks src = rest ∧ src.length < s.src.length := by
  obtain ⟨src, hp, hrest, hlt⟩ := h.yes hl
  exact ⟨src, by rw [bind_of hp, if_pos rfl], hrest, hlt⟩

theorem Detects.branch_no (h : Detects p lexeme)
    (hl : ∀ rest, ¬ lexeme (afterBlanks s.src) rest) :
    (p >>= fun b => if b = true then q else q') s = q' (s.at (afterBlanks s.src)) := by
  rw [bind_of (h.no hl), if_neg (by simp)]

/-- Once the blanks are skipped a lexeme is taken as before them. -/
theorem Detects.take (h : Detects p lexeme) {src rest : List Char}
    (hl : lexeme (afterBlanks src) rest) :
    ∃ src', p (s.at (afterBlanks src)) = some (true, s.at src') ∧ afterBlanks src' = rest ∧
      src'.length < src.length := by
  have hle := afterBlanks_length src
  obtain ⟨src', hp, hrest, hlt⟩ := h.yes (s := s.at (afterBlanks src)) (by simpa using hl)
  exact ⟨src', hp, hrest, hlt.trans_le hle⟩

/-- Once the blanks are skipped a lexeme that is not there changes nothing. -/
theorem Detects.skip (h : Detects p lexeme) {src : List Char}
    (hl : ∀ rest, ¬ lexeme (afterBlanks src) rest) :
    (p >>= fun b => if b = true then q else q') (s.at (afterBlanks src)) =
      q' (s.at (afterBlanks src)) := by
  rw [h.branch_no (by simpa using hl)]
  simp

end

theorem skipWs_at (s : State) : skipWs s = some ((), s.at (afterBlanks s.src)) := rfl

theorem matchChar_detects (c : Char) : Detects (matchChar c) (HasMark c) where
  answer s := by
    rw [matchChar, bind_of (skipWs_at s)]
    have hle := afterBlanks_length s.src
    cases hsrc : afterBlanks s.src with
    | nil => exact .inr ⟨rfl, by simp [HasMark]⟩
    | cons d rest =>
      rw [hsrc] at hle
      by_cases hd : d = c
      · exact .inl ⟨rest, by simp [hd, State.at], ⟨rest, by rw [hd], rfl⟩, hle⟩
      · exact .inr ⟨by simp [hd, State.at], fun rest => by simp [HasMark, hd]⟩
  unique := by
    rintro src rest rest' ⟨behind, rfl, rfl⟩ ⟨behind', h, rfl⟩
    cases h
    rfl

theorem matchWord_eq (word : List Char) (s : State) :
    matchWord word s =
      if (((afterBlanks s.src).take word.length).map Char.toLower = word &&
        !((afterBlanks s.src).drop word.length).head?.any isWordChar) = true then
        some (true, s.at ((afterBlanks s.src).drop word.length))
      else some (false, s.at (afterBlanks s.src)) := rfl

theorem matchWord_detects {word : List Char} (hw : word ≠ []) :
    Detects (matchWord word) (HasWord word) where
  answer s := by
    have hle := afterBlanks_length s.src
    have hpos := List.length_pos_of_ne_nil hw
    rw [matchWord_eq]
    generalize afterBlanks s.src = src at hle ⊢
    by_cases h : (src.take word.length).map Char.toLower = word ∧
        (src.drop word.length).head?.any isWordChar = false
    · have hlen := congrArg List.length h.1
      rw [List.length_map, List.length_take] at hlen
      have hif : (decide ((src.take word.length).map Char.toLower = word) &&
          !(src.drop word.length).head?.any isWordChar) = true := by
        rw [h.2, decide_eq_true h.1]
        rfl
      refine .inl ⟨src.drop word.length, if_pos hif, ⟨src.take word.length, src.drop word.length,
        (List.take_append_drop _ _).symm, h.1, fun c hc => ?_, rfl⟩, ?_⟩
      · rw [hc] at h
        simpa using h.2
      · rw [List.length_drop]
        omega
    · refine .inr ⟨if_neg fun hif => h ?_, ?_⟩
      · rw [Bool.and_eq_true, decide_eq_true_eq, Bool.not_eq_true'] at hif
        exact hif
      · rintro rest ⟨text, behind, rfl, rfl, hbehind, -⟩
        refine h ⟨by simp, ?_⟩
        rw [List.length_map, List.drop_left]
        cases behind with
        | nil => rfl
        | cons c behind => simpa using hbehind c rfl
  unique := by
    rintro src rest rest' ⟨text, behind, rfl, rfl, -, rfl⟩ ⟨text', behind', h, hword, -, rfl⟩
    have hlen : text'.length = text.length := by simpa using congrArg List.length hword
    rw [(List.append_inj h hlen.symm).2]

def readInteger (negative : Bool) (digits : List Char) : Int :=
  if negative then int64.reduce (-(readDigits digits)) else readDigits digits

theorem afterSign_digit {c : Char} (hc : c.isDigit = true) (src : List Char) :
    afterSign (c :: src) = c :: src ∧ c ≠ '-' := by
  have hne (d : Char) (hd : d.isDigit = false) : c ≠ d := by
    rintro rfl
    rw [hc] at hd
    contradiction
  refine ⟨?_, hne '-' rfl⟩
  unfold afterSign
  split <;> simp_all

theorem hasNumeral_iff {negative : Bool} {digits src rest : List Char} :
    HasNumeral negative digits src rest ↔
      negative = decide (src.head? = some '-') ∧ digits = (afterSign src).takeWhile Char.isDigit ∧
        digits ≠ [] ∧ rest = afterBlanks ((afterSign src).dropWhile Char.isDigit) := by
  constructor
  · rintro ⟨sign, behind, rfl, hsign, hne, hdigits, hbehind, rfl⟩
    have hafter : afterSign (sign ++ (digits ++ behind)) = digits ++ behind ∧
        negative = decide ((sign ++ (digits ++ behind)).head? = some '-') := by
      rcases hsign with ⟨rfl, rfl⟩ | ⟨rfl | rfl, rfl⟩
      · exact ⟨rfl, rfl⟩
      · exact ⟨rfl, rfl⟩
      · obtain ⟨c, ds, rfl⟩ := List.exists_cons_of_ne_nil hne
        obtain ⟨hsame, hminus⟩ := afterSign_digit (hdigits c List.mem_cons_self) (ds ++ behind)
        exact ⟨hsame, by simp [hminus]⟩
    rw [hafter.1, takeWhile_front hdigits hbehind, dropWhile_front hdigits hbehind]
    exact ⟨hafter.2, rfl, hne, rfl⟩
  · rintro ⟨rfl, rfl, hne, rfl⟩
    have hsplit := List.takeWhile_append_dropWhile (p := Char.isDigit) (l := afterSign src)
    have hdigits (c : Char) (hc : c ∈ (afterSign src).takeWhile Char.isDigit) : c.isDigit = true :=
      List.mem_takeWhile_imp hc
    have hsign : ∃ sign, src = sign ++ afterSign src ∧
        (sign = ['-'] ∧ decide (src.head? = some '-') = true ∨
          (sign = ['+'] ∨ sign = []) ∧ decide (src.head? = some '-') = false) := by
      unfold afterSign
      split
      · exact ⟨['+'], rfl, .inr ⟨.inl rfl, rfl⟩⟩
      · exact ⟨['-'], rfl, .inl ⟨rfl, rfl⟩⟩
      · rename_i hplus hminus
        refine ⟨[], rfl, .inr ⟨.inr rfl, decide_eq_false fun hhead => ?_⟩⟩
        obtain ⟨behind, rfl⟩ := List.head?_eq_some_iff.mp hhead
        exact hminus behind rfl
    obtain ⟨sign, hsrc, hsign⟩ := hsign
    exact ⟨sign, _, by rw [hsplit, ← hsrc], hsign, hne, hdigits, head_dropWhile _ _, rfl⟩

theorem HasNumeral.unique {negative negative' : Bool} {digits digits' src rest rest' : List Char}
    (h : HasNumeral negative digits src rest) (h' : HasNumeral negative' digits' src rest') :
    negative' = negative ∧ digits' = digits ∧ rest' = rest := by
  rw [hasNumeral_iff] at h h'
  exact ⟨h'.1.trans h.1.symm, h'.2.1.trans h.2.1.symm, h'.2.2.2.trans h.2.2.2.symm⟩

theorem readInt_eq (s : State) :
    readInt s =
      if (afterSign (afterBlanks s.src)).takeWhile Char.isDigit = [] then
        some (none, s.at (afterBlanks s.src))
      else some (some (if (afterBlanks s.src).head? = some '-' then
          int64.reduce (-(readDigits ((afterSign (afterBlanks s.src)).takeWhile Char.isDigit)))
        else readDigits ((afterSign (afterBlanks s.src)).takeWhile Char.isDigit)),
        s.at ((afterSign (afterBlanks s.src)).dropWhile Char.isDigit)) := rfl

theorem readInt_answer (s : State) :
    (∃ negative digits src, readInt s = some (some (readInteger negative digits), s.at src) ∧
      HasNumeral negative digits (afterBlanks s.src) (afterBlanks src) ∧
      src.length ≤ s.src.length) ∨
    readInt s = some (none, s.at (afterBlanks s.src)) ∧
      ∀ negative digits rest, ¬ HasNumeral negative digits (afterBlanks s.src) rest := by
  rw [readInt_eq]
  by_cases hnil : (afterSign (afterBlanks s.src)).takeWhile Char.isDigit = []
  · refine .inr ⟨if_pos hnil, fun negative digits rest h => ?_⟩
    rw [hasNumeral_iff] at h
    exact h.2.2.1 (h.2.1.trans hnil)
  · refine .inl ⟨decide ((afterBlanks s.src).head? = some '-'), _, _, ?_,
      hasNumeral_iff.mpr ⟨rfl, rfl, hnil, rfl⟩, ?_⟩
    · rw [if_neg hnil]
      simp only [readInteger, decide_eq_true_eq]
    · exact ((List.dropWhile_sublist _).length_le.trans (afterSign_length_le _)).trans
        (afterBlanks_length _)

theorem hasIdent_iff {name : String} {src rest : List Char} :
    HasIdent name src rest ↔ src.takeWhile isWordChar ≠ [] ∧
      name = lower (src.takeWhile isWordChar) ∧
      rest = afterBlanks (src.dropWhile isWordChar) := by
  constructor
  · rintro ⟨text, behind, rfl, hne, htext, hbehind, rfl, rfl⟩
    rw [takeWhile_front htext hbehind, dropWhile_front htext hbehind]
    exact ⟨hne, rfl, rfl⟩
  · rintro ⟨hne, rfl, rfl⟩
    exact ⟨_, _, List.takeWhile_append_dropWhile.symm, hne,
      fun _ => List.mem_takeWhile_imp, head_dropWhile _ _, rfl, rfl⟩

theorem lower_eq_empty {text : List Char} : lower text = "" ↔ text = [] := by
  simp [lower]

theorem readIdent_eq (s : State) :
    readIdent s = some (lower ((afterBlanks s.src).takeWhile isWordChar),
      s.at ((afterBlanks s.src).dropWhile isWordChar)) := rfl

theorem readIdent_answer (s : State) :
    (∃ name src, readIdent s = some (name, s.at src) ∧ name ≠ "" ∧
      HasIdent name (afterBlanks s.src) (afterBlanks src) ∧ src.length ≤ s.src.length) ∨
    (∃ src, readIdent s = some ("", s.at src)) ∧
      ∀ name rest, ¬ HasIdent name (afterBlanks s.src) rest := by
  rw [readIdent_eq]
  by_cases hnil : (afterBlanks s.src).takeWhile isWordChar = []
  · refine .inr ⟨⟨_, by rw [hnil]; rfl⟩, fun name rest h => ?_⟩
    exact (hasIdent_iff.mp h).1 hnil
  · refine .inl ⟨_, _, rfl, fun h => hnil (lower_eq_empty.mp h),
      hasIdent_iff.mpr ⟨hnil, rfl, rfl⟩, ?_⟩
    exact (List.dropWhile_sublist _).length_le.trans (afterBlanks_length _)

theorem readIdent_yes {s : State} {name : String} {rest : List Char}
    (h : HasIdent name (afterBlanks s.src) rest) :
    ∃ src, readIdent s = some (name, s.at src) ∧ name ≠ "" ∧ afterBlanks src = rest ∧
      src.length ≤ s.src.length := by
  obtain ⟨hne, rfl, rfl⟩ := hasIdent_iff.mp h
  exact ⟨_, readIdent_eq s, fun h => hne (lower_eq_empty.mp h), rfl,
    (List.dropWhile_sublist _).length_le.trans (afterBlanks_length _)⟩

theorem readInt_yes {s : State} {negative : Bool} {digits rest : List Char}
    (h : HasNumeral negative digits (afterBlanks s.src) rest) :
    ∃ src, readInt s = some (some (readInteger negative digits), s.at src) ∧
      afterBlanks src = rest ∧ src.length ≤ s.src.length := by
  rcases readInt_answer s with ⟨negative', digits', src, hrun, h', hle⟩ | ⟨-, hno⟩
  · obtain ⟨rfl, rfl, hrest⟩ := h.unique h'
    exact ⟨src, hrun, hrest, hle⟩
  · exact absurd h (hno _ _ _)

theorem HasRelop.unique {op op' : RelOp} {src rest rest' : List Char} (h : HasRelop op src rest)
    (h' : HasRelop op' src rest') : op' = op ∧ rest' = rest := by
  obtain ⟨behind, rfl, hlt, hgt, rfl⟩ := h
  obtain ⟨behind', hsrc, hlt', hgt', rfl⟩ := h'
  cases op <;> cases op' <;> simp_all [RelOp.text] <;> (subst hsrc; simp_all)

def relopAt (s : State) (src : List Char) : Option (Option RelOp × State) :=
  match src with
  | '=' :: rest => some (some .eq, s.at rest)
  | '<' :: '>' :: rest => some (some .ne, s.at rest)
  | '<' :: '=' :: rest => some (some .le, s.at rest)
  | '<' :: rest => some (some .lt, s.at rest)
  | '>' :: '=' :: rest => some (some .ge, s.at rest)
  | '>' :: rest => some (some .gt, s.at rest)
  | _ => some (none, s.at src)

theorem matchRelop_eq (s : State) : matchRelop s = relopAt s (afterBlanks s.src) := rfl

theorem matchRelop_answer (s : State) :
    (∃ op src, matchRelop s = some (some op, s.at src) ∧
      HasRelop op (afterBlanks s.src) (afterBlanks src) ∧ src.length ≤ s.src.length) ∨
    matchRelop s = some (none, s.at (afterBlanks s.src)) ∧
      ∀ op rest, ¬ HasRelop op (afterBlanks s.src) rest := by
  have hle := afterBlanks_length s.src
  have found {op : RelOp} {rest : List Char} (hsrc : afterBlanks s.src = op.text ++ rest)
      (hlt : op = .lt → rest.head? ≠ some '>' ∧ rest.head? ≠ some '=')
      (hgt : op = .gt → rest.head? ≠ some '=') :
      HasRelop op (afterBlanks s.src) (afterBlanks rest) ∧ rest.length ≤ s.src.length := by
    refine ⟨⟨rest, hsrc, hlt, hgt, rfl⟩, ?_⟩
    rw [hsrc, List.length_append] at hle
    omega
  rw [matchRelop_eq]
  unfold relopAt
  split
  · rename_i rest hsrc
    exact .inl ⟨.eq, rest, rfl, found hsrc (by simp) (by simp)⟩
  · rename_i rest hsrc
    exact .inl ⟨.ne, rest, rfl, found hsrc (by simp) (by simp)⟩
  · rename_i rest hsrc
    exact .inl ⟨.le, rest, rfl, found hsrc (by simp) (by simp)⟩
  · rename_i rest hne hle' hsrc
    refine .inl ⟨.lt, rest, rfl, found hsrc (fun _ => ⟨fun h => ?_, fun h => ?_⟩) (by simp)⟩
    · obtain ⟨behind, rfl⟩ := List.head?_eq_some_iff.mp h
      exact hne behind rfl
    · obtain ⟨behind, rfl⟩ := List.head?_eq_some_iff.mp h
      exact hle' behind rfl
  · rename_i rest hsrc
    exact .inl ⟨.ge, rest, rfl, found hsrc (by simp) (by simp)⟩
  · rename_i rest hge hsrc
    refine .inl ⟨.gt, rest, rfl, found hsrc (by simp) (fun _ h => ?_)⟩
    obtain ⟨behind, rfl⟩ := List.head?_eq_some_iff.mp h
    exact hge behind rfl
  · rename_i heq hne hle' hlt hge hgt
    refine .inr ⟨rfl, ?_⟩
    rintro op rest ⟨behind, hsrc, -, -, -⟩
    cases op with
    | eq => exact heq behind hsrc
    | ne => exact hne behind hsrc
    | lt => exact hlt behind hsrc
    | le => exact hle' behind hsrc
    | gt => exact hgt behind hsrc
    | ge => exact hge behind hsrc

theorem matchRelop_yes {s : State} {op : RelOp} {rest : List Char}
    (h : HasRelop op (afterBlanks s.src) rest) :
    ∃ src, matchRelop s = some (some op, s.at src) ∧ afterBlanks src = rest ∧
      src.length ≤ s.src.length := by
  rcases matchRelop_answer s with ⟨op', src, hrun, h', hle⟩ | ⟨-, hno⟩
  · obtain ⟨rfl, hrest⟩ := h.unique h'
    exact ⟨src, hrun, hrest, hle⟩
  · exact absurd h (hno _ _)

/-! What a lexeme begins with sets the lexemes apart. -/

section
variable {src rest : List Char}

theorem HasWord.head {c : Char} {word : List Char} (h : HasWord (c :: word) src rest) :
    ∃ d, src.head? = some d ∧ d.toLower = c := by
  obtain ⟨text, behind, rfl, hword, -, -⟩ := h
  cases text with
  | nil => cases hword
  | cons d text => exact ⟨d, rfl, (List.cons.inj hword).1⟩

theorem HasMark.head {c : Char} (h : HasMark c src rest) : src.head? = some c := by
  obtain ⟨behind, rfl, -⟩ := h
  rfl

theorem HasIdent.head {name : String} (h : HasIdent name src rest) :
    ∃ d, src.head? = some d ∧ isWordChar d = true := by
  obtain ⟨text, behind, rfl, hne, htext, -⟩ := h
  obtain ⟨d, text, rfl⟩ := List.exists_cons_of_ne_nil hne
  exact ⟨d, rfl, htext d List.mem_cons_self⟩

theorem HasNumeral.head {negative : Bool} {digits : List Char}
    (h : HasNumeral negative digits src rest) :
    ∃ d, src.head? = some d ∧ (d = '-' ∨ d = '+' ∨ d.isDigit = true) := by
  obtain ⟨sign, behind, rfl, hsign, hne, hdigits, -⟩ := h
  obtain ⟨d, digits, rfl⟩ := List.exists_cons_of_ne_nil hne
  rcases hsign with ⟨rfl, -⟩ | ⟨rfl | rfl, -⟩
  · exact ⟨'-', rfl, .inl rfl⟩
  · exact ⟨'+', rfl, .inr (.inl rfl)⟩
  · exact ⟨d, rfl, .inr (.inr (hdigits d List.mem_cons_self))⟩

theorem HasRelop.head {op : RelOp} (h : HasRelop op src rest) :
    ∃ d, src.head? = some d ∧ d ∈ ['=', '<', '>'] := by
  obtain ⟨behind, rfl, -⟩ := h
  cases op <;> exact ⟨_, rfl, by decide⟩

theorem toLower_digit {c : Char} (h : c.isDigit = true) : c.toLower = c := by
  apply dif_neg
  grind [Char.isDigit]

end
end Tp2cc.IfExpr
