import Tp2cc.Machine.Loop

/-! Parsers over a state with a count of the tokens left, and the rules that show a parser
returns: what has to consume a token, and what may not.  A run without a result is a run that
is out of fuel. -/
set_option autoImplicit false

namespace Parsing
open Machine

/-- The states of a parser: how many tokens are left, and of what kind the current one is. -/
class Input (σ : Type) (κ : outParam Type) where
  left : σ → Nat
  kind : σ → κ

export Input (left kind)

abbrev Parser (σ α : Type) : Type := StateT σ Option α

section
variable {σ α β : Type}

def loop (body : α → Parser σ (LoopStep α β)) : Nat → α → Parser σ β
  | 0, _ => fun _ => none
  | n+1, a => do
    match ← body a with
    | .again a' => loop body n a'
    | .done b => pure b

def Again : LoopStep α β → Prop
  | .again _ => True
  | .done _ => False

end

section
variable {σ κ : Type} [Input σ κ] {α β : Type}

/-- From every state with fewer than `n` tokens left and a current kind in `K` the parser
returns, it takes no token back, and it has consumed one if the value is in `eaten`. -/
def Runs (K : κ → Prop) (n : Nat) (eaten : α → Prop) (p : Parser σ α) : Prop :=
  ∀ s, K (kind s) → left s < n →
    ∃ a s', p s = some (a, s') ∧ left s' ≤ left s ∧ (eaten a → left s' < left s)

abbrev Safe (n : Nat) (p : Parser σ α) : Prop := Runs (fun _ => True) n (fun _ => False) p

variable {K K' : κ → Prop} {n m : Nat} {eaten eaten' : α → Prop} {p : Parser σ α}

theorem Runs.mono (h : Runs K n eaten p) (hK : ∀ k, K' k → K k) (hn : m ≤ n)
    (he : ∀ a, eaten' a → eaten a) : Runs K' m eaten' p := by
  intro s hs hm
  obtain ⟨a, s', hp, hle, hlt⟩ := h s (hK _ hs) (by omega)
  exact ⟨a, s', hp, hle, fun ha => hlt (he a ha)⟩

theorem Runs.safe (h : Runs (fun _ => True) n eaten p) : Runs K n (fun _ => False) p :=
  h.mono (fun _ _ => trivial) (Nat.le_refl _) fun _ => False.elim

theorem Runs.forget (h : Runs K n eaten p) : Runs K n (fun _ => False) p :=
  h.mono (fun _ => id) (Nat.le_refl _) fun _ => False.elim

theorem Safe.at (h : Safe n p) : Runs K n (fun _ => False) p := h.safe

theorem Safe.paid (h : Safe n p) (he : ∀ a, ¬eaten a) : Runs K n eaten p :=
  h.mono (fun _ _ => trivial) (Nat.le_refl _) he

theorem Runs.pure {a : α} (h : ¬eaten a) : Runs K n eaten (pure a : Parser σ α) :=
  fun s _ _ => ⟨a, s, rfl, Nat.le_refl _, fun ha => (h ha).elim⟩

theorem Runs.pureSafe {a : α} : Runs K n (fun _ => False) (Pure.pure a : Parser σ α) :=
  Runs.pure id

theorem Runs.done {a : β} : Runs K n Again (Pure.pure (.done a) : Parser σ (LoopStep α β)) :=
  Runs.pure id

/-- What the first parser has not consumed, the second has to. -/
theorem Runs.bindOf {f : α → Parser σ β} {eaten' : β → Prop} (hp : Runs K n eaten p)
    (hf : ∀ a, Runs (fun _ => True) n (fun b => eaten' b ∧ ¬ eaten a) (f a)) :
    Runs K n eaten' (p >>= f) := by
  intro s hs hn
  obtain ⟨a, s₁, h₁, hle₁, hlt₁⟩ := hp s hs hn
  obtain ⟨b, s₂, h₂, hle₂, hlt₂⟩ := hf a s₁ trivial (by omega)
  refine ⟨b, s₂, ?_, by omega, fun hb => ?_⟩
  · simp only [Bind.bind, StateT.bind, h₁]
    exact h₂
  · by_cases ha : eaten a
    · have := hlt₁ ha
      omega
    · have := hlt₂ ⟨hb, ha⟩
      omega

theorem Runs.bind {f : α → Parser σ β} {eaten : β → Prop} (hp : Runs K n (fun _ => False) p)
    (hf : ∀ a, Runs (fun _ => True) n eaten (f a)) : Runs K n eaten (p >>= f) :=
  Runs.bindOf hp fun a => (hf a).mono (fun _ => id) (Nat.le_refl _) fun _ h => h.1

/-- Once a token is consumed what follows needs less fuel and has nothing left to consume. -/
theorem Runs.bindEaten {f : α → Parser σ β} {eaten : β → Prop}
    (hp : Runs K (n+1) (fun _ => True) p) (hf : ∀ a, Safe n (f a)) :
    Runs K (n+1) eaten (p >>= f) := by
  intro s hs hn
  obtain ⟨a, s₁, h₁, -, hlt₁⟩ := hp s hs hn
  have hlt := hlt₁ trivial
  obtain ⟨b, s₂, h₂, hle₂, -⟩ := hf a s₁ trivial (by omega)
  refine ⟨b, s₂, ?_, by omega, fun _ => by omega⟩
  simp only [Bind.bind, StateT.bind, h₁]
  exact h₂

theorem Runs.bindEatenSafe {f : α → Parser σ β} {eaten : β → Prop}
    (hp : Runs K n (fun _ => True) p) (hf : ∀ a, Safe n (f a)) : Runs K n eaten (p >>= f) := by
  cases n with
  | zero => exact fun s _ hn => absurd hn (Nat.not_lt_zero _)
  | succ n => exact Runs.bindEaten hp fun a => (hf a).mono (fun _ => id) (Nat.le_succ n) fun _ => id

theorem Runs.map {f : α → β} (hp : Runs K n (fun _ => False) p) :
    Runs K n (fun _ => False) (f <$> p) := by
  intro s hs hn
  obtain ⟨a, s₁, h₁, hle, -⟩ := hp s hs hn
  refine ⟨f a, s₁, ?_, hle, False.elim⟩
  simp only [Functor.map, StateT.map, h₁, Bind.bind, Option.bind, Pure.pure]

def Looks (p : Parser σ α) : Prop :=
  ∀ s, ∃ a s', p s = some (a, s') ∧ kind s' = kind s ∧ left s' = left s

theorem Runs.look {f : α → Parser σ β} {eaten : β → Prop} (hp : Looks p)
    (hf : ∀ a, Runs K n eaten (f a)) : Runs K n eaten (p >>= f) := by
  intro s hs hn
  obtain ⟨a, s₁, h₁, hk, hl⟩ := hp s
  obtain ⟨b, s₂, h₂, hle, hlt⟩ := hf a s₁ (hk ▸ hs) (by omega)
  refine ⟨b, s₂, ?_, by omega, fun hb => by have := hlt hb; omega⟩
  simp only [Bind.bind, StateT.bind, h₁]
  exact h₂

theorem Looks.safe (hp : Looks p) : Runs K n (fun _ => False) p := by
  intro s _ _
  obtain ⟨a, s₁, h₁, -, hl⟩ := hp s
  exact ⟨a, s₁, h₁, by omega, False.elim⟩

/-- The parser looks at the input and answers `true` only where the current kind is in `T`,
`false` only where it is in `F`. -/
def Tests (T F : κ → Prop) (p : Parser σ Bool) : Prop :=
  ∀ s, ∃ b s', p s = some (b, s') ∧ kind s' = kind s ∧ left s' = left s ∧
    if b = true then T (kind s) else F (kind s)

theorem Tests.looks {T F : κ → Prop} {p : Parser σ Bool} (hp : Tests T F p) : Looks p := by
  intro s
  obtain ⟨b, s', h, hk, hl, -⟩ := hp s
  exact ⟨b, s', h, hk, hl⟩

theorem Runs.test {T F : κ → Prop} {p : Parser σ Bool} {q q' : Parser σ α} (hp : Tests T F p)
    (hq : Runs (fun k => K k ∧ T k) n eaten q) (hq' : Runs (fun k => K k ∧ F k) n eaten q') :
    Runs K n eaten (p >>= fun b => if b = true then q else q') := by
  intro s hs hn
  obtain ⟨b, s₁, h₁, hk, hl, hb⟩ := hp s
  have hrun : Runs (fun k => K k ∧ k = kind s) n eaten (if b = true then q else q') := by
    split at hb
    · rename_i hbt
      subst hbt
      exact hq.mono (fun k h => ⟨h.1, h.2 ▸ hb⟩) (Nat.le_refl _) fun _ => id
    · rename_i hbf
      simp only [hbf]
      exact hq'.mono (fun k h => ⟨h.1, h.2 ▸ hb⟩) (Nat.le_refl _) fun _ => id
  obtain ⟨a, s₂, h₂, hle, hlt⟩ := hrun s₁ ⟨hk ▸ hs, hk⟩ (by omega)
  refine ⟨a, s₂, ?_, by omega, fun ha => by have := hlt ha; omega⟩
  simp only [Bind.bind, StateT.bind, h₁]
  exact h₂

theorem Runs.take {p : Parser σ Bool} {q q' : Parser σ α} (hp : Runs K (n+1) (· = true) p)
    (hq : Safe n q) (hq' : Runs (fun _ => True) (n+1) eaten q') :
    Runs K (n+1) eaten (p >>= fun b => if b = true then q else q') := by
  intro s hs hn
  obtain ⟨b, s₁, h₁, hle₁, hlt₁⟩ := hp s hs hn
  simp only [Bind.bind, StateT.bind, h₁]
  cases b with
  | true =>
    have hlt := hlt₁ rfl
    obtain ⟨a, s₂, h₂, hle₂, -⟩ := hq s₁ trivial (by omega)
    exact ⟨a, s₂, h₂, by omega, fun _ => by omega⟩
  | false =>
    obtain ⟨a, s₂, h₂, hle₂, hlt₂⟩ := hq' s₁ trivial (by omega)
    exact ⟨a, s₂, h₂, by omega, fun ha => by have := hlt₂ ha; omega⟩

theorem Runs.takeSafe {p : Parser σ Bool} {q q' : Parser σ α} (hp : Runs K n (· = true) p)
    (hq : Safe n q) (hq' : Runs (fun _ => True) n eaten q') :
    Runs K n eaten (p >>= fun b => if b = true then q else q') := by
  cases n with
  | zero => exact fun s _ hn => absurd hn (Nat.not_lt_zero _)
  | succ n => exact Runs.take hp (hq.mono (fun _ => id) (Nat.le_succ n) fun _ => id) hq'

/-- A parser that consumes a token where the current kind is in `K`, which pays for one more
token left; elsewhere it still returns. -/
structure Starts (K : κ → Prop) (n : Nat) (p : Parser σ α) : Prop where
  eats : Runs K (n+1) (fun _ => True) p
  safe : Safe n p

theorem Starts.forget (h : Starts K n p) : Runs K (n+1) (fun _ => False) p := h.eats.forget

theorem Starts.mono (h : Starts K n p) (hK : ∀ k, K' k → K k) : Starts K' n p :=
  ⟨h.eats.mono hK (Nat.le_refl _) fun _ => id, h.safe⟩

theorem Starts.bind {f : α → Parser σ β} (hp : Starts K n p) (hf : ∀ a, Safe n (f a)) :
    Starts K n (p >>= f) :=
  ⟨Runs.bindEaten hp.eats hf, Runs.bind hp.safe hf⟩

theorem Starts.look {f : α → Parser σ β} (hp : Looks p) (hf : ∀ a, Starts K n (f a)) :
    Starts K n (p >>= f) :=
  ⟨Runs.look hp fun a => (hf a).eats, Runs.look hp fun a => (hf a).safe⟩

theorem Starts.test {T F : κ → Prop} {p : Parser σ Bool} {q q' : Parser σ α} (hp : Tests T F p)
    (hq : Starts (fun k => K k ∧ T k) n q) (hq' : Starts (fun k => K k ∧ F k) n q') :
    Starts K n (p >>= fun b => if b = true then q else q') :=
  ⟨Runs.test hp hq.eats hq'.eats, Runs.test hp hq.safe.at hq'.safe.at⟩

theorem Starts.ite {c : Prop} [Decidable c] {q : Parser σ α} (hp : Starts K n p)
    (hq : Starts K n q) : Starts K n (if c then p else q) := by
  split
  · exact hp
  · exact hq

/-- A loop whose every further iteration consumes a token returns. -/
theorem Runs.loop {body : α → Parser σ (LoopStep α β)} (hm : n ≤ m)
    (hbody : ∀ a, Runs (fun _ => True) n Again (body a)) (a : α) :
    Runs K n (fun _ => False) (loop body m a) := by
  suffices h : ∀ m a s, left s < m → left s < n →
      ∃ b s', Parsing.loop body m a s = some (b, s') ∧ left s' ≤ left s by
    intro s _ hn
    obtain ⟨b, s', hb, hle⟩ := h m a s (by omega) hn
    exact ⟨b, s', hb, hle, False.elim⟩
  intro m
  induction m with
  | zero => exact fun a s h => absurd h (Nat.not_lt_zero _)
  | succ m ih =>
    intro a s hm hn
    obtain ⟨step, s₁, h₁, hle, hlt⟩ := hbody a s trivial hn
    cases step with
    | again a' =>
      have hlt := hlt trivial
      obtain ⟨b, s₂, h₂, hle₂⟩ := ih a' s₁ (by omega) (by omega)
      refine ⟨b, s₂, ?_, by omega⟩
      simp only [Parsing.loop, Bind.bind, StateT.bind, h₁]
      exact h₂
    | done b =>
      refine ⟨b, s₁, ?_, hle⟩
      simp only [Parsing.loop, Bind.bind, StateT.bind, h₁]
      rfl

theorem Runs.ite {c : Prop} [Decidable c] {q : Parser σ α} (hp : Runs K n eaten p)
    (hq : Runs K n eaten q) : Runs K n eaten (if c then p else q) := by
  split
  · exact hp
  · exact hq

end
end Parsing
