import Mathlib.Data.List.Induction
import Tp2cc.Runtime.SplitPath

/-! `tp2cc_split_commandline`: a command line and the arguments that it spells. -/
set_option autoImplicit false

namespace Tp2cc.Rt

def singleQuote : UInt8 := 39
def doubleQuote : UInt8 := 34

def IsSpace (c : UInt8) : Prop := c = 32 ∨ 9 ≤ c ∧ c ≤ 13

instance : DecidablePred IsSpace := fun _ => inferInstanceAs (Decidable (_ ∨ _))

/-- The variables of the loop. -/
@[ext] structure CommandSplit where
  args : List (List UInt8)
  cur : List UInt8
  quote : UInt8
  escape : Bool

namespace CommandSplit

def step (s : CommandSplit) (c : UInt8) : CommandSplit :=
  if s.escape then { s with cur := s.cur ++ [c], escape := false }
  else if s.quote ≠ singleQuote ∧ c = backslash then { s with escape := true }
  else if s.quote ≠ singleQuote ∧ s.quote = doubleQuote ∧ c = doubleQuote then
    { s with quote := 0 }
  else if s.quote = singleQuote ∧ c = singleQuote then { s with quote := 0 }
  else if s.quote = 0 ∧ (c = singleQuote ∨ c = doubleQuote) then { s with quote := c }
  else if s.quote = 0 ∧ IsSpace c then
    if s.cur ≠ [] then { s with args := s.args ++ [s.cur], cur := [] } else s
  else { s with cur := s.cur ++ [c] }

def finish (s : CommandSplit) : List (List UInt8) :=
  let cur := if s.escape then s.cur ++ [backslash] else s.cur
  if cur ≠ [] then s.args ++ [cur] else s.args

end CommandSplit

def tp2ccSplitCommandline (s : List UInt8) : List (List UInt8) :=
  (s.foldl CommandSplit.step ⟨[], [], 0, false⟩).finish

/-! The command lines. -/
namespace CommandLine

/-- A text between double quotes, and what it stands for. -/
inductive Quoted : List UInt8 → List UInt8 → Prop
  | nil : Quoted [] []
  | escaped {text value : List UInt8} (c : UInt8) :
      Quoted text value → Quoted (backslash :: c :: text) (c :: value)
  | byte {text value : List UInt8} {c : UInt8} (hescape : c ≠ backslash) (hquote : c ≠ doubleQuote) :
      Quoted text value → Quoted (c :: text) (c :: value)

inductive Spells : List UInt8 → List UInt8 → Prop
  | nil : Spells [] []
  | escaped {text value : List UInt8} (c : UInt8) :
      Spells text value → Spells (backslash :: c :: text) (c :: value)
  | byte {text value : List UInt8} {c : UInt8} (hescape : c ≠ backslash) (hsingle : c ≠ singleQuote)
      (hdouble : c ≠ doubleQuote) (hspace : ¬IsSpace c) :
      Spells text value → Spells (c :: text) (c :: value)
  | single {body text value : List UInt8} (hbody : singleQuote ∉ body) :
      Spells text value → Spells (singleQuote :: (body ++ singleQuote :: text)) (body ++ value)
  | double {body inner text value : List UInt8} (hbody : Quoted body inner) :
      Spells text value → Spells (doubleQuote :: (body ++ doubleQuote :: text)) (inner ++ value)

/-- The text of the last argument, which may end in a quotation or behind a backslash. -/
inductive SpellsLast : List UInt8 → List UInt8 → Prop
  | closed {text value : List UInt8} : Spells text value → SpellsLast text value
  | escape {text value : List UInt8} : Spells text value →
      SpellsLast (text ++ [backslash]) (value ++ [backslash])
  | single {text value body : List UInt8} (hbody : singleQuote ∉ body) : Spells text value →
      SpellsLast (text ++ singleQuote :: body) (value ++ body)
  | double {text value body inner : List UInt8} (hbody : Quoted body inner) : Spells text value →
      SpellsLast (text ++ doubleQuote :: body) (value ++ inner)
  | doubleEscape {text value body inner : List UInt8} (hbody : Quoted body inner) :
      Spells text value →
      SpellsLast (text ++ doubleQuote :: (body ++ [backslash])) (value ++ (inner ++ [backslash]))

def argument (value : List UInt8) : List (List UInt8) := if value ≠ [] then [value] else []

end CommandLine

inductive CommandLine : List UInt8 → List (List UInt8) → Prop
  | last {text value : List UInt8} : CommandLine.SpellsLast text value →
      CommandLine text (CommandLine.argument value)
  | space {text value rest : List UInt8} {args : List (List UInt8)} {c : UInt8} (hspace : IsSpace c) :
      CommandLine.Spells text value → CommandLine rest args →
      CommandLine (text ++ c :: rest) (CommandLine.argument value ++ args)

/-! What the loop does with a text of the grammar. -/
section
variable {args : List (List UInt8)} {cur : List UInt8}

theorem IsSpace.plain {c : UInt8} (h : IsSpace c) :
    c ≠ backslash ∧ c ≠ singleQuote ∧ c ≠ doubleQuote := by
  refine ⟨?_, ?_, ?_⟩ <;> rintro rfl <;> exact absurd h (by decide)

namespace CommandSplit

theorem step_escape (c : UInt8) (quote : UInt8) :
    step ⟨args, cur, quote, true⟩ c = ⟨args, cur ++ [c], quote, false⟩ := rfl

theorem step_backslash {quote : UInt8} (h : quote ≠ singleQuote) :
    step ⟨args, cur, quote, false⟩ backslash = ⟨args, cur, quote, true⟩ := by
  simp [step, h]

theorem step_single {c : UInt8} (h : c ≠ singleQuote) :
    step ⟨args, cur, singleQuote, false⟩ c = ⟨args, cur ++ [c], singleQuote, false⟩ := by
  have hopen : singleQuote ≠ 0 := by decide
  simp [step, h, hopen]

theorem step_double {c : UInt8} (hescape : c ≠ backslash) (hquote : c ≠ doubleQuote) :
    step ⟨args, cur, doubleQuote, false⟩ c = ⟨args, cur ++ [c], doubleQuote, false⟩ := by
  have hopen : doubleQuote ≠ 0 := by decide
  have hother : doubleQuote ≠ singleQuote := by decide
  simp [step, hescape, hquote, hopen, hother]

theorem step_close {quote : UInt8} (h : quote = singleQuote ∨ quote = doubleQuote) :
    step ⟨args, cur, quote, false⟩ quote = ⟨args, cur, 0, false⟩ := by
  rcases h with rfl | rfl <;> rfl

theorem step_open {quote : UInt8} (h : quote = singleQuote ∨ quote = doubleQuote) :
    step ⟨args, cur, 0, false⟩ quote = ⟨args, cur, quote, false⟩ := by
  rcases h with rfl | rfl <;> rfl

theorem step_byte {c : UInt8} (hescape : c ≠ backslash) (hsingle : c ≠ singleQuote)
    (hdouble : c ≠ doubleQuote) (hspace : ¬IsSpace c) :
    step ⟨args, cur, 0, false⟩ c = ⟨args, cur ++ [c], 0, false⟩ := by
  simp [step, hescape, hsingle, hdouble, hspace]

theorem step_space {c : UInt8} (h : IsSpace c) :
    step ⟨args, cur, 0, false⟩ c = ⟨args ++ CommandLine.argument cur, [], 0, false⟩ := by
  obtain ⟨hescape, hsingle, hdouble⟩ := h.plain
  by_cases hcur : cur = []
  · simp [step, h, hescape, hsingle, hdouble, hcur, CommandLine.argument]
  · simp [step, h, hescape, hsingle, hdouble, hcur, CommandLine.argument]

theorem run_quoted {body inner : List UInt8} (h : CommandLine.Quoted body inner) :
    body.foldl step ⟨args, cur, doubleQuote, false⟩ =
      ⟨args, cur ++ inner, doubleQuote, false⟩ := by
  induction h generalizing cur with
  | nil => simp
  | escaped c _ ih =>
    rw [List.foldl_cons, step_backslash (by decide), List.foldl_cons, step_escape, ih]
    simp
  | byte hescape hquote _ ih =>
    rw [List.foldl_cons, step_double hescape hquote, ih]
    simp

theorem run_single {body : List UInt8} (h : singleQuote ∉ body) :
    body.foldl step ⟨args, cur, singleQuote, false⟩ =
      ⟨args, cur ++ body, singleQuote, false⟩ := by
  induction body generalizing cur with
  | nil => simp
  | cons c body ih =>
    rw [List.mem_cons, not_or] at h
    rw [List.foldl_cons, step_single (Ne.symm h.1), ih h.2]
    simp

theorem run_spells {text value : List UInt8} (h : CommandLine.Spells text value) :
    text.foldl step ⟨args, cur, 0, false⟩ = ⟨args, cur ++ value, 0, false⟩ := by
  induction h generalizing cur with
  | nil => simp
  | escaped c _ ih =>
    rw [List.foldl_cons, step_backslash (by decide), List.foldl_cons, step_escape, ih]
    simp
  | byte hescape hsingle hdouble hspace _ ih =>
    rw [List.foldl_cons, step_byte hescape hsingle hdouble hspace, ih]
    simp
  | single hbody _ ih =>
    rw [List.foldl_cons, step_open (.inl rfl), List.foldl_append, run_single hbody,
      List.foldl_cons, step_close (.inl rfl), ih]
    simp
  | double hbody _ ih =>
    rw [List.foldl_cons, step_open (.inr rfl), List.foldl_append, run_quoted hbody,
      List.foldl_cons, step_close (.inr rfl), ih]
    simp

theorem finish_eq {quote : UInt8} :
    finish ⟨args, cur, quote, false⟩ = args ++ CommandLine.argument cur := by
  by_cases hcur : cur = [] <;> simp [finish, CommandLine.argument, hcur]

theorem finish_escape {quote : UInt8} :
    finish ⟨args, cur, quote, true⟩ = args ++ CommandLine.argument (cur ++ [backslash]) := by
  simp [finish, CommandLine.argument]

theorem run_last {text value : List UInt8} (h : CommandLine.SpellsLast text value) :
    (text.foldl step ⟨args, [], 0, false⟩).finish = args ++ CommandLine.argument value := by
  cases h with
  | closed h => rw [run_spells h, List.nil_append, finish_eq]
  | escape h =>
    rw [List.foldl_append, run_spells h, List.foldl_cons, step_backslash (by decide),
      List.foldl_nil, finish_escape, List.nil_append]
  | single hbody h =>
    rw [List.foldl_append, run_spells h, List.foldl_cons, step_open (.inl rfl), run_single hbody,
      finish_eq, List.nil_append]
  | double hbody h =>
    rw [List.foldl_append, run_spells h, List.foldl_cons, step_open (.inr rfl), run_quoted hbody,
      finish_eq, List.nil_append]
  | doubleEscape hbody h =>
    rw [List.foldl_append, run_spells h, List.foldl_cons, step_open (.inr rfl), List.foldl_append,
      run_quoted hbody, List.foldl_cons, step_backslash (by decide), List.foldl_nil, finish_escape,
      List.nil_append, List.append_assoc]

theorem run_line {text : List UInt8} {more : List (List UInt8)} (h : CommandLine text more) :
    (text.foldl step ⟨args, [], 0, false⟩).finish = args ++ more := by
  induction h generalizing args with
  | last h => exact run_last h
  | space hspace h _ ih =>
    rw [List.foldl_append, run_spells h, List.foldl_cons, List.nil_append, step_space hspace, ih,
      List.append_assoc]

end CommandSplit
end

/-! Every text is a command line. -/
namespace CommandLine

variable {text value : List UInt8} {args : List (List UInt8)}

/-- Where a text behind a double quote leads: to the next one, to the end, or to a backslash
at the end. -/
inductive Quotes (text : List UInt8) : Prop
  | closed {body inner rest : List UInt8} (hbody : Quoted body inner)
      (htext : text = body ++ doubleQuote :: rest)
  | ends {inner : List UInt8} (hbody : Quoted text inner)
  | escape {body inner : List UInt8} (hbody : Quoted body inner)
      (htext : text = body ++ [backslash])

theorem Quotes.append (h : Quotes text) (front word : List UInt8)
    (hfront : ∀ {body inner : List UInt8}, Quoted body inner → Quoted (front ++ body) (word ++ inner)) :
    Quotes (front ++ text) := by
  cases h with
  | closed hbody htext => exact .closed (hfront hbody) (by rw [htext, List.append_assoc])
  | ends hbody => exact .ends (hfront hbody)
  | escape hbody htext => exact .escape (hfront hbody) (by rw [htext, List.append_assoc])

theorem quotes (text : List UInt8) : Quotes text := by
  induction text using List.twoStepInduction with
  | nil => exact .ends .nil
  | singleton c =>
    by_cases hescape : c = backslash
    · exact .escape .nil (by rw [hescape, List.nil_append])
    by_cases hquote : c = doubleQuote
    · exact .closed .nil (by rw [hquote]; rfl)
    · exact .ends (.byte hescape hquote .nil)
  | cons_cons c d rest ih ih' =>
    by_cases hescape : c = backslash
    · subst hescape
      exact ih.append [backslash, d] [d] fun h => .escaped d h
    by_cases hquote : c = doubleQuote
    · exact .closed .nil (by rw [hquote, List.nil_append])
    · exact (ih' d).append [c] [c] fun h => .byte hescape hquote h

theorem SpellsLast.append (h : SpellsLast text value) (front word : List UInt8)
    (hfront : ∀ {text value : List UInt8}, Spells text value → Spells (front ++ text) (word ++ value)) :
    SpellsLast (front ++ text) (word ++ value) := by
  cases h with
  | closed h => exact .closed (hfront h)
  | escape h =>
    rw [← List.append_assoc, ← List.append_assoc]
    exact .escape (hfront h)
  | single hbody h =>
    rw [← List.append_assoc, ← List.append_assoc]
    exact .single hbody (hfront h)
  | double hbody h =>
    rw [← List.append_assoc, ← List.append_assoc]
    exact .double hbody (hfront h)
  | doubleEscape hbody h =>
    rw [← List.append_assoc, ← List.append_assoc]
    exact .doubleEscape hbody (hfront h)

theorem exists_append (h : CommandLine text args) (front word : List UInt8)
    (hfront : ∀ {text value : List UInt8}, Spells text value → Spells (front ++ text) (word ++ value)) :
    ∃ args, CommandLine (front ++ text) args := by
  cases h with
  | last h => exact ⟨_, .last (h.append front word hfront)⟩
  | space hspace h hrest =>
    rw [← List.append_assoc]
    exact ⟨_, .space hspace (hfront h) hrest⟩

theorem exists_line (text : List UInt8) : ∃ args, CommandLine text args := by
  induction hlength : text.length using Nat.strongRecOn generalizing text with
  | _ n ih =>
  subst hlength
  cases text with
  | nil => exact ⟨_, .last (.closed .nil)⟩
  | cons c text =>
    by_cases hescape : c = backslash
    · subst hescape
      cases text with
      | nil => exact ⟨_, .last (.escape .nil)⟩
      | cons d text =>
        obtain ⟨args, h⟩ := ih text.length (by simp only [List.length_cons]; omega) text rfl
        exact h.exists_append [backslash, d] [d] fun h => .escaped d h
    by_cases hsingle : c = singleQuote
    · subst hsingle
      by_cases hmem : singleQuote ∈ text
      · obtain ⟨body, rest, rfl, hbody⟩ := List.eq_append_cons_of_mem hmem
        obtain ⟨args, h⟩ := ih rest.length
          (by simp only [List.length_append, List.length_cons]; omega) rest rfl
        simpa using h.exists_append (singleQuote :: (body ++ [singleQuote])) body
          fun h => by simpa using .single hbody h
      · exact ⟨_, .last (.single hmem .nil)⟩
    by_cases hdouble : c = doubleQuote
    · subst hdouble
      cases quotes text with
      | @closed body inner rest hbody htext =>
        obtain ⟨args, h⟩ := ih rest.length
          (by simp only [htext, List.length_append, List.length_cons]; omega) rest rfl
        rw [htext]
        simpa using h.exists_append (doubleQuote :: (body ++ [doubleQuote])) inner
          fun h => by simpa using .double hbody h
      | ends hbody => exact ⟨_, .last (.double hbody .nil)⟩
      | escape hbody htext =>
        rw [htext]
        exact ⟨_, .last (.doubleEscape hbody .nil)⟩
    obtain ⟨args, h⟩ := ih text.length (by simp only [List.length_cons]; omega) text rfl
    by_cases hspace : IsSpace c
    · exact ⟨_, .space hspace .nil h⟩
    · exact h.exists_append [c] [c] fun h => .byte hescape hsingle hdouble hspace h

theorem nil_notMem_argument (value : List UInt8) : [] ∉ argument value := by
  by_cases h : value = []
  · simp [argument, h]
  · simp [argument, h, Ne.symm h]

theorem nil_notMem (h : CommandLine text args) : [] ∉ args := by
  induction h with
  | last _ => exact nil_notMem_argument _
  | space _ _ _ ih => exact List.mem_append.not.mpr (not_or.mpr ⟨nil_notMem_argument _, ih⟩)

theorem spells_escaped (value : List UInt8) :
    Spells (value.flatMap fun c => [backslash, c]) value := by
  induction value with
  | nil => exact .nil
  | cons c value ih => exact .escaped c ih

theorem exists_text (h : [] ∉ args) : ∃ text, CommandLine text args := by
  induction args with
  | nil => exact ⟨[], .last (.closed .nil)⟩
  | cons value args ih =>
    rw [List.mem_cons, not_or] at h
    obtain ⟨text, htext⟩ := ih h.2
    have hvalue : argument value = [value] := if_pos (Ne.symm h.1)
    refine ⟨(value.flatMap fun c => [backslash, c]) ++ 32 :: text, ?_⟩
    have hline := htext.space (c := 32) (by decide) (spells_escaped value)
    rwa [hvalue] at hline

end CommandLine

/-- The arguments are those that the command line spells. -/
theorem tp2ccSplitCommandline_iff (s : List UInt8) (args : List (List UInt8)) :
    tp2ccSplitCommandline s = args ↔ CommandLine s args := by
  have hrun : ∀ {more : List (List UInt8)}, CommandLine s more → tp2ccSplitCommandline s = more :=
    fun h => CommandSplit.run_line h
  constructor
  · rintro rfl
    obtain ⟨more, h⟩ := CommandLine.exists_line s
    rwa [hrun h]
  · exact hrun

example : tp2ccSplitCommandline [97, 32, 39, 98, 32, 99, 39, 32, 34, 34] = [[97], [98, 32, 99]] := by
  decide

/-- A command line can have any arguments but empty ones. -/
theorem exists_commandline_iff (args : List (List UInt8)) :
    (∃ s, tp2ccSplitCommandline s = args) ↔ [] ∉ args := by
  constructor
  · rintro ⟨s, hs⟩
    obtain ⟨more, h⟩ := CommandLine.exists_line s
    rw [← hs, show tp2ccSplitCommandline s = more from CommandSplit.run_line h]
    exact h.nil_notMem
  · intro h
    obtain ⟨text, htext⟩ := CommandLine.exists_text h
    exact ⟨text, CommandSplit.run_line htext⟩

end Tp2cc.Rt
