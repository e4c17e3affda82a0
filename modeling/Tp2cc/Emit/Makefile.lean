import Tp2cc.Machine.Recipe

set_option autoImplicit false

namespace Tp2cc
open Machine

def shellQuoteByte (c : UInt8) : List UInt8 := if c = 39 then ascii "'\"'\"'" else [c]

def shellQuote (s : List UInt8) : List UInt8 := 39 :: s.flatMap shellQuoteByte ++ [39]

def quotedArgs (tp2ccArgs : List (List UInt8)) : List UInt8 :=
  tp2ccArgs.flatMap fun arg => 32 :: shellQuote arg

/-- The recipe of the rule that `emit_makefile` writes when there are sources and arguments, from
its tab to the blank line behind it. -/
def regenerationRecipe (tp2ccArgs : List (List UInt8)) : List UInt8 :=
  9 :: (ascii "$(TP2CC)" ++ quotedArgs tp2ccArgs ++ [10, 10])

/-- A run of make: what its references stand for, and the command that the shell reads in
`TP2CC`. -/
structure MakeEnv where
  reference : List UInt8 → List UInt8
  command : List (List UInt8)
  program : Shell.words .plain none (reference (ascii "TP2CC")) = some command

def MakeEnv.run (env : MakeEnv) (line : List UInt8) : Option (List (List UInt8)) :=
  ((Make.recipe line).bind (Make.expand env.reference .text)).bind (Shell.words .plain none)

/-- In every run of make the recipe passes on the arguments. -/
def Regenerates (tp2ccArgs : List (List UInt8)) : Prop :=
  ∀ env : MakeEnv, env.run (regenerationRecipe tp2ccArgs) = some (env.command ++ tp2ccArgs)

/-- An argument without dollars, in which each newline is behind an odd number of backslashes and
not before a tab. -/
def PassesMake (arg : List UInt8) : Prop :=
  36 ∉ arg ∧
    ∀ xs ys, arg = xs ++ 10 :: ys → Make.backslashes xs % 2 = 1 ∧ ys.head? ≠ some 9

section
variable {arg : List UInt8} {args : List (List UInt8)}

theorem quotedArgs_cons :
    quotedArgs (arg :: args) =
      32 :: 39 :: (arg.flatMap shellQuoteByte ++ 39 :: quotedArgs args) := by
  simp [quotedArgs, shellQuote]

theorem words_shellQuoteBody (word ys : List UInt8) :
    Shell.words .single (some word) (arg.flatMap shellQuoteByte ++ 39 :: ys) =
      Shell.words .plain (some (word ++ arg)) ys := by
  induction arg generalizing word with
  | nil => simp [Shell.words, Shell.step]
  | cons c arg ih =>
    by_cases hc : c = 39
    · subst hc
      simp [shellQuoteByte, ascii, Shell.words, Shell.step, Shell.put, ih]
    · simp [shellQuoteByte, hc, Shell.words, Shell.step, Shell.put, ih]

theorem words_quotedArgs (word : Option (List UInt8)) :
    Shell.words .plain word (quotedArgs args) = some (word.toList ++ args) := by
  induction args generalizing word with
  | nil => simp [quotedArgs, Shell.words]
  | cons arg args ih =>
    simp [quotedArgs_cons, Shell.words, Shell.step, Shell.put, words_shellQuoteBody, ih]

theorem countP_quotedArgs (p : UInt8 → Bool) (h : p 32 = false ∧ p 34 = false ∧ p 39 = false) :
    (quotedArgs args).countP p = args.flatten.countP p := by
  have hbody : ∀ arg : List UInt8, (arg.flatMap shellQuoteByte).countP p = arg.countP p := by
    intro arg
    induction arg with
    | nil => rfl
    | cons c arg ih =>
      by_cases hc : c = 39
      · subst hc
        simp [shellQuoteByte, ascii, h, ih]
      · simp [shellQuoteByte, hc, ih, List.countP_cons]
  induction args with
  | nil => rfl
  | cons arg args ih =>
    simp only [quotedArgs_cons, List.flatten_cons, List.countP_append, ← ih, ← hbody arg]
    simp [h]

theorem mem_quotedArgs {c : UInt8} (h : c ≠ 32 ∧ c ≠ 34 ∧ c ≠ 39) :
    c ∈ quotedArgs args ↔ ∃ arg ∈ args, c ∈ arg := by
  have hcount : (quotedArgs args).count c = args.flatten.count c :=
    countP_quotedArgs (· == c) ⟨by simp [Ne.symm h.1], by simp [Ne.symm h.2.1], by simp [Ne.symm h.2.2]⟩
  rw [← List.mem_flatten, ← List.count_pos_iff, ← List.count_pos_iff, hcount]

theorem joins_shellQuoteBody (escaped joined : Bool) (ys : List UInt8) :
    Make.joins escaped joined (arg.flatMap shellQuoteByte ++ 39 :: ys) =
      (Make.joins escaped joined arg && Make.joins false false ys) := by
  induction arg generalizing escaped joined with
  | nil => simp [Make.joins]
  | cons c arg ih =>
    by_cases hc : c = 39
    · subst hc
      simp [shellQuoteByte, ascii, Make.joins, ih]
    · simp [shellQuoteByte, hc, Make.joins, ih, Bool.and_assoc]

theorem joins_quotedArgs :
    Make.joins false false (quotedArgs args) = args.all (Make.joins false false) := by
  induction args with
  | nil => rfl
  | cons arg args ih => simp [quotedArgs_cons, Make.joins, joins_shellQuoteBody, ih]

theorem recipe_regenerationRecipe :
    Make.recipe (regenerationRecipe args) =
      some (ascii "$(TP2CC)" ++ Make.recipeLine false false (quotedArgs args)) := by
  have hprogram : ∀ cs, Make.recipeLine false false (ascii "$(TP2CC)" ++ cs) =
      ascii "$(TP2CC)" ++ Make.recipeLine false false cs := by
    intro cs
    simp [ascii, Make.recipeLine]
  have hend : Make.recipeLine false false (quotedArgs args ++ [10, 10]) =
      Make.recipeLine false false (quotedArgs args) := by
    cases List.eq_nil_or_concat args with
    | inl h =>
      subst h
      simp [quotedArgs, Make.recipeLine]
    | inr h =>
      obtain ⟨init, last, h⟩ := h
      subst h
      have hlast : quotedArgs (init.concat last) =
          (quotedArgs init ++ 32 :: 39 :: last.flatMap shellQuoteByte) ++ [39] := by
        simp [quotedArgs, shellQuote]
      rw [hlast, List.append_assoc]
      exact Make.recipeLine_end _ [10] (by simp [Make.inert])
  simp only [regenerationRecipe, Make.recipe, if_true, List.append_assoc, hprogram, hend]

theorem expand_program (reference : List UInt8 → List UInt8) (cs : List UInt8) :
    Make.expand reference .text (ascii "$(TP2CC)" ++ cs) =
      (Make.expand reference .text cs).map (reference (ascii "TP2CC") ++ ·) := by
  simp [ascii, Make.expand]

theorem run_regenerationRecipe (env : MakeEnv) :
    env.run (regenerationRecipe args) =
      ((Make.expand env.reference .text (Make.recipeLine false false (quotedArgs args))).bind
        (Shell.words .plain none)).map (env.command ++ ·) := by
  rw [MakeEnv.run, recipe_regenerationRecipe, Option.bind_some, expand_program]
  cases args with
  | nil => simp [quotedArgs, Make.recipeLine, Make.expand, env.program, Shell.words]
  | cons arg args =>
    rw [quotedArgs_cons, Make.recipeLine_inert (by simp [Make.inert]), Make.expand,
      if_neg (by decide)]
    cases Make.expand env.reference .text (Make.recipeLine false false
        (39 :: (arg.flatMap shellQuoteByte ++ 39 :: quotedArgs args))) with
    | none => rfl
    | some us => simp [Shell.words_append_space us env.program, Shell.words, Shell.step]

end

theorem regenerates_of_passes {args : List (List UInt8)} (h : ∀ arg ∈ args, PassesMake arg) :
    Regenerates args := by
  intro env
  have hjoins : Make.joins false false (quotedArgs args) = true := by
    rw [joins_quotedArgs, List.all_eq_true]
    exact fun arg harg => (Make.joins_iff arg).mpr (h arg harg).2
  have hdollar : 36 ∉ quotedArgs args := by
    rw [mem_quotedArgs (by decide)]
    intro hmem
    obtain ⟨arg, harg, hdollar⟩ := hmem
    exact (h arg harg).1 hdollar
  rw [run_regenerationRecipe, Make.recipeLine_eq hjoins, Make.expand_text hdollar, Option.bind_some,
    words_quotedArgs]
  rfl

theorem passes_of_run (env : MakeEnv) (hplain : ∀ name, 36 ∉ env.reference name)
    {args : List (List UInt8)}
    (h : env.run (regenerationRecipe args) = some (env.command ++ args)) :
    ∀ arg ∈ args, PassesMake arg := by
  rw [run_regenerationRecipe, Option.map_eq_some_iff] at h
  obtain ⟨ws, hbind, hws⟩ := h
  rw [List.append_cancel_left hws] at hbind
  obtain ⟨us, hexpand, hwords⟩ := Option.bind_eq_some_iff.mp hbind
  -- Each byte of an argument is in the text that the shell splits.
  have hcount (p : UInt8 → Bool) (hp : p 32 = false ∧ p 34 = false ∧ p 39 = false) :
      (quotedArgs args).countP p ≤ us.countP p := by
    rw [countP_quotedArgs p hp]
    simpa [Shell.held] using Shell.words_countP p hwords
  have hdollar : 36 ∉ Make.recipeLine false false (quotedArgs args) := by
    intro hmem
    have hlost := Make.expand_loses hplain hmem hexpand
    have hline : (Make.recipeLine false false (quotedArgs args)).count 36 ≤ (quotedArgs args).count 36 :=
      Make.recipeLine_countP (· == 36)
    have hkept : (quotedArgs args).count 36 ≤ us.count 36 := hcount (· == 36) (by decide)
    omega
  rw [Make.expand_text hdollar, Option.some.injEq] at hexpand
  subst hexpand
  have hjoins : Make.joins false false (quotedArgs args) = true := by
    by_contra hnot
    have hlost := Make.recipeLine_loses (Bool.eq_false_iff.mpr hnot)
    have hkept := hcount Make.layout (by decide)
    omega
  rw [Make.recipeLine_eq hjoins, mem_quotedArgs (by decide)] at hdollar
  rw [joins_quotedArgs, List.all_eq_true] at hjoins
  intro arg harg
  exact ⟨fun hmem => hdollar ⟨arg, harg, hmem⟩, (Make.joins_iff arg).mp (hjoins arg harg)⟩

def bareEnv : MakeEnv where
  reference name := if name = ascii "TP2CC" then ascii "tp2cc" else []
  command := [ascii "tp2cc"]
  program := by decide

/-- The recipe passes the arguments on exactly if each gets through make. -/
theorem regenerates_iff (args : List (List UInt8)) :
    Regenerates args ↔ ∀ arg ∈ args, PassesMake arg := by
  constructor
  · intro h
    refine passes_of_run bareEnv ?_ (h bareEnv)
    intro name
    simp only [bareEnv]
    split <;> simp [ascii]
  · exact regenerates_of_passes

theorem not_regenerates_home : ¬ Regenerates [ascii "-DX=$HOME"] := by
  intro h
  have hrun := h bareEnv
  revert hrun
  decide

end Tp2cc
