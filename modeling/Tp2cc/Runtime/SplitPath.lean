import Tp2cc.Parsing.Components
import Tp2cc.Runtime.FExpand

/-! The directory, the name and the extension of a path: `tp2cc_split_path`, `p_fsplit` and
the functions over them. -/
set_option autoImplicit false

namespace Tp2cc.Rt
open Parsing

def backslash : UInt8 := 92
def colon : UInt8 := 58

def isAlpha (c : UInt8) : Bool := (65 ≤ c && c ≤ 90) || (97 ≤ c && c ≤ 122)

structure PathParts where
  dir : List UInt8
  name : List UInt8
  ext : List UInt8
  deriving DecidableEq

def hasDrive (path : List UInt8) : Bool :=
  match path with
  | c :: d :: _ => isAlpha c && d == colon
  | _ => false

/-- `path.substr(0, 2)` and what `path.erase(0, 2)` leaves. -/
def splitDrive (input : List UInt8) : List UInt8 × List UInt8 :=
  if hasDrive input then (input.take 2, input.drop 2) else ([], input)

def splitLeaf (separator : UInt8 → Bool) (path : List UInt8) : List UInt8 × List UInt8 :=
  match findLastOf separator path with
  | some i => (path.take (i+1), path.drop (i+1))
  | none => ([], path)

/-- The cut in front of the last dot, where its place allows one. -/
def splitExt (cuts : Nat → Bool) (leaf : List UInt8) : List UInt8 × List UInt8 :=
  match findLastOf (· == dot) leaf with
  | some i => if cuts i then (leaf.take i, leaf.drop i) else (leaf, [])
  | none => (leaf, [])

/-- What `tp2cc_split_path` and `p_fsplit` share. -/
def splitParts (separator : UInt8 → Bool) (cuts : Nat → Bool) (input : List UInt8) : PathParts :=
  let (drive, path) := splitDrive input
  let (dir, leaf) := splitLeaf separator path
  let (name, ext) := splitExt cuts leaf
  ⟨drive ++ dir, name, ext⟩

def isSlash (c : UInt8) : Bool := c == slash
def isSeparator (c : UInt8) : Bool := c == slash || c == backslash

def tp2ccSplitPath (input : List UInt8) : PathParts := splitParts isSeparator (· != 0) input

/-- `if (c == '\\') c = '/';` -/
def normaliseSlash (c : UInt8) : UInt8 := if c = backslash then slash else c

structure SplitResult where
  dir : ShortString .full
  name : ShortString .full
  ext : ShortString .full

def fsplitParts (input : List UInt8) : PathParts :=
  splitParts isSlash (fun _ => true) (input.map normaliseSlash)

def pFsplit (input : ShortString .full) : SplitResult :=
  let parts := fsplitParts (tp2ccToStdString input)
  ⟨tp2ccShortstringOfCStr .full (some parts.dir), tp2ccShortstringOfCStr .full (some parts.name),
    tp2ccShortstringOfCStr .full (some parts.ext)⟩

/-- The strings that `tp2cc_to_std_string` takes. An `AnsiString` is its characters. -/
inductive PathText where
  | short {n : Capacity} (s : ShortString n)
  | ansi (s : List UInt8)
  | cstr (s : Option (List UInt8))

def PathText.toStdString : PathText → List UInt8
  | .short s => tp2ccToStdString s
  | .ansi s => s
  | .cstr s => cString s

def tp2ccAnsistringOf (s : List UInt8) : List UInt8 := cString (some s)

def pExtractfilepath (input : PathText) : List UInt8 :=
  tp2ccAnsistringOf (tp2ccSplitPath input.toStdString).dir

def pExtractfilename (input : PathText) : List UInt8 :=
  let parts := tp2ccSplitPath input.toStdString
  tp2ccAnsistringOf (parts.name ++ parts.ext)

def pExtractfileext (input : PathText) : List UInt8 :=
  tp2ccAnsistringOf (tp2ccSplitPath input.toStdString).ext

def pChangefileext (input ext : PathText) : List UInt8 :=
  let parts := tp2ccSplitPath input.toStdString
  tp2ccAnsistringOf (parts.dir ++ parts.name ++ ext.toStdString)

/-- A directory part without a drive. -/
def EndsIn (separator : UInt8 → Bool) (dir : List UInt8) : Prop :=
  dir = [] ∨ ∃ c ∈ dir.getLast?, separator c = true

structure PathParts.Split (separator : UInt8 → Bool) (parts : PathParts) (text : List UInt8) :
    Prop where
  whole : parts.dir ++ parts.name ++ parts.ext = text
  name : ∀ c ∈ parts.name, separator c = false
  ext : ∀ c ∈ parts.ext, separator c = false
  dir_end : EndsIn separator parts.dir ∨ ∃ c, isAlpha c = true ∧ parts.dir = [c, colon]
  ext_start : parts.ext = [] ∨ ∃ behind, parts.ext = dot :: behind ∧ dot ∉ behind

section
variable {separator : UInt8 → Bool} {cuts : Nat → Bool} {input dir leaf drive path : List UInt8}

theorem EndsIn.append (hdir : EndsIn separator dir) :
    dir = [] ∨ EndsIn separator (drive ++ dir) := by
  cases hdir with
  | inl h => exact .inl h
  | inr h =>
    obtain ⟨c, hc, hsep⟩ := h
    refine .inr (.inr ⟨c, ?_, hsep⟩)
    rw [List.getLast?_append, Option.mem_def.mp hc]
    rfl

theorem splitLeaf_append (hdir : EndsIn separator dir) (hleaf : ∀ c ∈ leaf, separator c = false) :
    splitLeaf separator (dir ++ leaf) = (dir, leaf) := by
  cases hdir with
  | inl h => rw [splitLeaf, h, List.nil_append, findLastOf_none hleaf]
  | inr h =>
    obtain ⟨c, hc, hsep⟩ := h
    obtain ⟨front, hfront⟩ := List.getLast?_eq_some_iff.mp hc
    rw [splitLeaf, hfront, List.append_assoc, List.singleton_append, findLastOf_append hsep hleaf]
    simp [List.take_append, List.take_of_length_le]

theorem splitLeaf_cases (separator : UInt8 → Bool) (path : List UInt8) :
    ∃ dir leaf, splitLeaf separator path = (dir, leaf) ∧ dir ++ leaf = path ∧
      EndsIn separator dir ∧ ∀ c ∈ leaf, separator c = false := by
  cases findLastOf_cases separator path with
  | inl h => exact ⟨[], path, by rw [splitLeaf, h.1], rfl, .inl rfl, h.2⟩
  | inr h =>
    obtain ⟨front, a, behind, hpath, -, ha, hbehind⟩ := h
    have hend : EndsIn separator (front ++ [a]) := .inr ⟨a, List.getLast?_concat, ha⟩
    have hcut : front ++ [a] ++ behind = path := by rw [hpath]; simp
    exact ⟨front ++ [a], behind, hcut ▸ splitLeaf_append hend hbehind, hcut, hend, hbehind⟩

theorem splitExt_cases (cuts : Nat → Bool) (leaf : List UInt8) :
    ∃ name ext, splitExt cuts leaf = (name, ext) ∧ name ++ ext = leaf ∧
      (ext = [] ∨ ∃ behind, ext = dot :: behind ∧ dot ∉ behind) := by
  cases findLastOf_cases (· == dot) leaf with
  | inl h => exact ⟨leaf, [], by rw [splitExt, h.1], List.append_nil leaf, .inl rfl⟩
  | inr h =>
    obtain ⟨front, a, behind, hleaf, hlast, ha, hbehind⟩ := h
    rw [splitExt, hlast]
    cases hcuts : cuts front.length with
    | false => exact ⟨leaf, [], by simp [hcuts], List.append_nil leaf, .inl rfl⟩
    | true =>
      refine ⟨leaf.take front.length, leaf.drop front.length, by simp [hcuts],
        List.take_append_drop _ _, .inr ⟨behind, ?_, ?_⟩⟩
      · rw [hleaf, List.drop_left, beq_iff_eq.mp ha]
      · intro hdot
        simpa using hbehind dot hdot

theorem splitDrive_cases (input : List UInt8) :
    ∃ drive path, splitDrive input = (drive, path) ∧ drive ++ path = input ∧
      (drive = [] ∨ ∃ c, isAlpha c = true ∧ drive = [c, colon]) := by
  by_cases h : hasDrive input
  · refine ⟨input.take 2, input.drop 2, by rw [splitDrive, if_pos h], List.take_append_drop 2 input,
      .inr ?_⟩
    match input, h with
    | c :: d :: input, h =>
      simp only [hasDrive, Bool.and_eq_true, beq_iff_eq] at h
      exact ⟨c, h.1, by simp [h.2]⟩
  · exact ⟨[], input, by rw [splitDrive, if_neg h], rfl, .inl rfl⟩

theorem splitParts_split (separator : UInt8 → Bool) (cuts : Nat → Bool) (input : List UInt8) :
    (splitParts separator cuts input).Split separator input := by
  obtain ⟨drive, path, hdrive, hinput, hform⟩ := splitDrive_cases input
  obtain ⟨dir, leaf, hleaf, hpath, hdir, hsep⟩ := splitLeaf_cases separator path
  obtain ⟨name, ext, hext, hname, hstart⟩ := splitExt_cases cuts leaf
  have hparts : splitParts separator cuts input = ⟨drive ++ dir, name, ext⟩ := by
    simp only [splitParts, hdrive, hleaf, hext]
  rw [hparts]
  refine ⟨?_, ?_, ?_, ?_, hstart⟩
  · rw [List.append_assoc, hname, List.append_assoc, hpath, hinput]
  · exact fun c hc => hsep c (hname ▸ List.mem_append_left ext hc)
  · exact fun c hc => hsep c (hname ▸ List.mem_append_right name hc)
  · cases hdir.append with
    | inl h =>
      subst h
      cases hform with
      | inl h => exact .inl (.inl (by simp [h]))
      | inr h => exact .inr (by simpa using h)
    | inr h => exact .inl h

theorem PathParts.Split.text {parts : PathParts} {text : List UInt8}
    (h : parts.Split separator text) (htext : 0 ∉ text) :
    0 ∉ parts.dir ∧ 0 ∉ parts.name ∧ 0 ∉ parts.ext := by
  rw [← h.whole] at htext
  simpa [not_or, and_assoc] using htext

theorem normaliseSlash_ne (c : UInt8) : normaliseSlash c ≠ backslash := by
  unfold normaliseSlash
  split
  · decide
  · assumption

theorem normaliseSlash_text {text : List UInt8} (h : 0 ∉ text) :
    0 ∉ text.map normaliseSlash := by
  intro hmem
  obtain ⟨c, hc, hzero⟩ := List.mem_map.mp hmem
  unfold normaliseSlash at hzero
  split at hzero
  · exact absurd hzero (by decide)
  · exact h (hzero ▸ hc)

theorem PathParts.Split.of_slash {parts : PathParts} {text : List UInt8}
    (h : parts.Split isSlash text) (htext : backslash ∉ text) : parts.Split isSeparator text := by
  have hslash : ∀ c, isSlash c = true → isSeparator c = true := by
    intro c hc
    simp only [isSlash] at hc
    simp [isSeparator, hc]
  have hfree : ∀ c ∈ text, isSlash c = false → isSeparator c = false := by
    intro c hc hsep
    have hne : c ≠ backslash := fun hback => htext (hback ▸ hc)
    simp only [isSlash] at hsep
    simp [isSeparator, hsep, hne]
  refine ⟨h.whole, ?_, ?_, ?_, h.ext_start⟩
  · intro c hc
    apply hfree c _ (h.name c hc)
    rw [← h.whole]
    simp [hc]
  · intro c hc
    apply hfree c _ (h.ext c hc)
    rw [← h.whole]
    simp [hc]
  · cases h.dir_end with
    | inl hdir =>
      cases hdir with
      | inl hnil => exact .inl (.inl hnil)
      | inr hlast =>
        obtain ⟨c, hc, hsep⟩ := hlast
        exact .inl (.inr ⟨c, hc, hslash c hsep⟩)
    | inr hdrive => exact .inr hdrive

theorem fsplitParts_split (text : List UInt8) :
    (fsplitParts text).Split isSeparator (text.map normaliseSlash) := by
  apply (splitParts_split isSlash (fun _ => true) (text.map normaliseSlash)).of_slash
  intro hback
  obtain ⟨c, -, hc⟩ := List.mem_map.mp hback
  exact normaliseSlash_ne c hc

theorem content_length_le (s : ShortString .full) : s.content.length ≤ 255 := by
  rw [ShortString.content, List.length_take, s.data_length]
  exact Nat.min_le_right _ _

theorem pFsplit_content {s : ShortString .full} (hs : 0 ∉ s.content) :
    (⟨(pFsplit s).dir.content, (pFsplit s).name.content, (pFsplit s).ext.content⟩ : PathParts) =
      fsplitParts s.content := by
  have hsplit := fsplitParts_split s.content
  obtain ⟨hdir, hname, hext⟩ := hsplit.text (normaliseSlash_text hs)
  have hlen := congrArg List.length hsplit.whole
  have hle := content_length_le s
  simp only [List.length_append, List.length_map] at hlen
  simp only [pFsplit, tp2ccToStdString]
  rw [shortstringOfCStr_content hdir (by omega), shortstringOfCStr_content hname (by omega),
    shortstringOfCStr_content hext (by omega)]

theorem splitDrive_change {front ext behind : List UInt8} (hfront : front ≠ [])
    (h : splitDrive input = (drive, path)) (hpath : path = front ++ ext) :
    splitDrive (drive ++ (front ++ dot :: behind)) = (drive, front ++ dot :: behind) := by
  unfold splitDrive at h
  by_cases hinput : hasDrive input
  · rw [if_pos hinput] at h
    cases h
    match input, hinput with
    | c :: d :: input, hinput =>
      simp only [hasDrive] at hinput
      simp [splitDrive, hasDrive, hinput]
  · rw [if_neg hinput] at h
    cases h
    have hnone : hasDrive (front ++ dot :: behind) = false := by
      have hcolon : (dot == colon) = false := by decide
      match front, hfront with
      | [c], _ => simp [hasDrive, hcolon]
      | c :: d :: front, _ => simpa [hpath, hasDrive] using hinput
    simp [splitDrive, hnone]

theorem splitExt_dot {name behind : List UInt8} (hname : name ≠ []) (h : dot ∉ behind) :
    splitExt (· != 0) (name ++ dot :: behind) = (name, dot :: behind) := by
  have hdot : ∀ b ∈ behind, (b == dot) = false := by
    intro b hb
    rw [beq_eq_false_iff_ne]
    exact fun heq => h (heq ▸ hb)
  have hlast : findLastOf (· == dot) (name ++ dot :: behind) = some name.length :=
    findLastOf_append (beq_self_eq_true dot) hdot
  rw [splitExt, hlast]
  simp [hname]

theorem tp2ccSplitPath_change {text behind : List UInt8} (hname : (tp2ccSplitPath text).name ≠ [])
    (h : ∀ c ∈ behind, c ≠ dot ∧ isSeparator c = false) :
    tp2ccSplitPath ((tp2ccSplitPath text).dir ++ (tp2ccSplitPath text).name ++ dot :: behind) =
      ⟨(tp2ccSplitPath text).dir, (tp2ccSplitPath text).name, dot :: behind⟩ := by
  obtain ⟨drive, path, hdrive, -, -⟩ := splitDrive_cases text
  obtain ⟨dir, leaf, hleaf, hpath, hdir, hsep⟩ := splitLeaf_cases isSeparator path
  obtain ⟨name, ext, hext, hwhole, -⟩ := splitExt_cases (· != 0) leaf
  have hparts : tp2ccSplitPath text = ⟨drive ++ dir, name, ext⟩ := by
    simp only [tp2ccSplitPath, splitParts, hdrive, hleaf, hext]
  rw [hparts] at hname ⊢
  have hfront : dir ++ name ≠ [] := by simp [hname]
  have hcut : path = dir ++ name ++ ext := by rw [← hpath, ← hwhole, List.append_assoc]
  have hagain := @splitDrive_change text drive path (dir ++ name) ext behind hfront hdrive hcut
  have hclean : ∀ c ∈ name ++ dot :: behind, isSeparator c = false := by
    intro c hc
    have hdot : isSeparator dot = false := by decide
    have hnamed : ∀ d ∈ name, isSeparator d = false := fun d hd =>
      hsep d (hwhole ▸ List.mem_append_left ext hd)
    cases List.mem_append.mp hc with
    | inl hc => exact hnamed c hc
    | inr hc =>
      cases List.mem_cons.mp hc with
      | inl hc => rw [hc, hdot]
      | inr hc => exact (h c hc).2
  have hnodot : dot ∉ behind := fun hmem => (h dot hmem).1 rfl
  rw [List.append_assoc] at hagain
  have htext : drive ++ dir ++ name ++ dot :: behind =
      drive ++ (dir ++ (name ++ dot :: behind)) := by simp
  simp only [htext, tp2ccSplitPath, splitParts, hagain, splitLeaf_append hdir hclean,
    splitExt_dot hname hnodot]

theorem tp2ccAnsistringOf_append {front : List UInt8} (h : 0 ∉ front) (behind : List UInt8) :
    tp2ccAnsistringOf (front ++ behind) = front ++ tp2ccAnsistringOf behind := by
  have hfront : ∀ c ∈ front, (c ≠ 0 : Bool) = true := by
    intro c hc
    simp only [ne_eq, decide_not, Bool.not_eq_eq_eq_not, Bool.not_true, decide_eq_false_iff_not]
    exact fun hzero => h (hzero ▸ hc)
  exact List.takeWhile_append_of_pos hfront

theorem tp2ccAnsistringOf_text {text : List UInt8} (h : 0 ∉ text) : tp2ccAnsistringOf text = text :=
  cString_text h

theorem tp2ccAnsistringOf_dot (behind : List UInt8) :
    tp2ccAnsistringOf (dot :: behind) = dot :: tp2ccAnsistringOf behind := by
  have hdot : dot ≠ 0 := by decide
  simp [tp2ccAnsistringOf, cString, hdot]

variable {p : PathText}

theorem tp2ccSplitPath_split (text : List UInt8) : (tp2ccSplitPath text).Split isSeparator text :=
  splitParts_split isSeparator (· != 0) text

theorem pExtractfilepath_eq (hp : 0 ∉ p.toStdString) :
    pExtractfilepath p = (tp2ccSplitPath p.toStdString).dir :=
  tp2ccAnsistringOf_text ((tp2ccSplitPath_split _).text hp).1

theorem pExtractfileext_eq (hp : 0 ∉ p.toStdString) :
    pExtractfileext p = (tp2ccSplitPath p.toStdString).ext :=
  tp2ccAnsistringOf_text ((tp2ccSplitPath_split _).text hp).2.2

theorem pExtractfilename_eq (hp : 0 ∉ p.toStdString) : pExtractfilename p =
    (tp2ccSplitPath p.toStdString).name ++ (tp2ccSplitPath p.toStdString).ext := by
  obtain ⟨-, hname, hext⟩ := (tp2ccSplitPath_split _).text hp
  exact tp2ccAnsistringOf_text (by simp [hname, hext])

theorem pChangefileext_eq (hp : 0 ∉ p.toStdString) (ext : PathText) : pChangefileext p ext =
    (tp2ccSplitPath p.toStdString).dir ++ (tp2ccSplitPath p.toStdString).name ++
      tp2ccAnsistringOf ext.toStdString := by
  obtain ⟨hdir, hname, -⟩ := (tp2ccSplitPath_split _).text hp
  exact tp2ccAnsistringOf_append (by simp [hdir, hname]) ext.toStdString

theorem pChangefileext_own (hp : 0 ∉ p.toStdString) :
    pChangefileext p (.ansi (pExtractfileext p)) = p.toStdString := by
  have hext := ((tp2ccSplitPath_split _).text hp).2.2
  rw [pChangefileext_eq hp, pExtractfileext_eq hp, PathText.toStdString,
    tp2ccAnsistringOf_text hext]
  exact (tp2ccSplitPath_split _).whole

theorem pChangefileext_twice (hp : 0 ∉ p.toStdString)
    (hname : (tp2ccSplitPath p.toStdString).name ≠ []) {e : PathText} {behind : List UInt8}
    (he : e.toStdString = dot :: behind) (h : ∀ c ∈ behind, c ≠ dot ∧ isSeparator c = false)
    (f : PathText) : pChangefileext (.ansi (pChangefileext p e)) f = pChangefileext p f := by
  have hshort : ∀ c ∈ tp2ccAnsistringOf behind, c ≠ dot ∧ isSeparator c = false :=
    fun c hc => h c ((List.takeWhile_sublist _).mem hc)
  have hsplit := tp2ccSplitPath_change hname hshort
  have hinner : (PathText.ansi (pChangefileext p e)).toStdString =
      (tp2ccSplitPath p.toStdString).dir ++ (tp2ccSplitPath p.toStdString).name ++
        dot :: tp2ccAnsistringOf behind := by
    rw [PathText.toStdString, pChangefileext_eq hp, he, tp2ccAnsistringOf_dot]
  have hfree : 0 ∉ (PathText.ansi (pChangefileext p e)).toStdString := by
    rw [PathText.toStdString, pChangefileext, tp2ccAnsistringOf]
    exact zero_not_mem_cString _
  rw [pChangefileext_eq hfree, hinner, hsplit, pChangefileext_eq hp]

theorem splitsPath {s : ShortString .full} (hs : 0 ∉ s.content) (hp : 0 ∉ p.toStdString) :
    PathParts.Split isSeparator
        ⟨(pFsplit s).dir.content, (pFsplit s).name.content, (pFsplit s).ext.content⟩
        (s.content.map normaliseSlash) ∧
      (tp2ccSplitPath p.toStdString).Split isSeparator p.toStdString ∧
      pExtractfilepath p = (tp2ccSplitPath p.toStdString).dir ∧
      pExtractfilename p =
        (tp2ccSplitPath p.toStdString).name ++ (tp2ccSplitPath p.toStdString).ext ∧
      pExtractfileext p = (tp2ccSplitPath p.toStdString).ext ∧
      pChangefileext p (.ansi (pExtractfileext p)) = p.toStdString ∧
      ((tp2ccSplitPath p.toStdString).name ≠ [] →
        ∀ (e f : PathText) (behind : List UInt8), e.toStdString = dot :: behind →
          (∀ c ∈ behind, c ≠ dot ∧ isSeparator c = false) →
          pChangefileext (.ansi (pChangefileext p e)) f = pChangefileext p f) := by
  refine ⟨?_, tp2ccSplitPath_split _, pExtractfilepath_eq hp, pExtractfilename_eq hp,
    pExtractfileext_eq hp, pChangefileext_own hp, ?_⟩
  · rw [pFsplit_content hs]
    exact fsplitParts_split s.content
  · intro hname e f behind he hbehind
    exact pChangefileext_twice hp hname he hbehind f

end

def drivePath : List UInt8 := [99, 58, 92, 97, 46, 98]

theorem splitsPath_drive :
    pChangefileext (.ansi drivePath) (.ansi (pExtractfileext (.ansi drivePath))) = drivePath :=
  (splitsPath (s := tp2ccShortstringOfCStr .full (some drivePath)) (by decide) (by decide)).2.2.2.2.2.1

end Tp2cc.Rt
