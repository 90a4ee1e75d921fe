import Mathlib.Data.Nat.Notation
import Mathlib.Logic.Relation

/-!
# Shift-reduce parsers

A parser by tables has a stack of states with semantic values. The state on top and the next
token decide whether a token is shifted or a rule is reduced, and a reduction runs the
action of its rule, which works on a memory. An action may take rounds of its own, so what a
parser does is what it does with enough rounds.
-/

namespace Infra

namespace ShiftReduce

/-- What a state does on the next token. -/
inductive Action (Q R : Type) where
  | shift (q : Q)
  | reduce (r : R)
  | accept
  | error

/-- The tables of a parser with the values of its tokens and the actions of its rules. An
action gets the values on the stack, the last one first. -/
structure Automaton (Q T N R V σ : Type) where
  start : Q
  action : Q → Option T → Action Q R
  goto : Q → N → Option Q
  lhs : R → N
  size : R → ℕ
  value : T → V
  act : ℕ → R → List V → σ → Option (V × σ)

/-- The stack, the tokens that are left, and the memory. -/
structure Config (Q T V σ : Type) where
  stack : List (Q × V)
  input : List T
  mem : σ

namespace Automaton

variable {Q T N R V σ : Type} (M : Automaton Q T N R V σ)

/-- The state on top of the stack. -/
def top : List (Q × V) → Q
  | [] => M.start
  | x :: _ => x.1

/-- One action of the parser: it goes on, or it stops and tells whether it accepts. -/
def step (fuel : ℕ) (c : Config Q T V σ) : Option (Config Q T V σ ⊕ Bool × σ) :=
  match M.action (M.top c.stack) c.input.head?, c.input with
  | .shift q, t :: ts => some (.inl { c with stack := (q, M.value t) :: c.stack, input := ts })
  | .shift _, [] => none
  | .reduce r, _ => do
      let (v, mem) ← M.act fuel r (c.stack.map Prod.snd) c.mem
      let stack := c.stack.drop (M.size r)
      let q ← M.goto (M.top stack) (M.lhs r)
      some (.inl { c with stack := (q, v) :: stack, mem := mem })
  | .accept, _ => some (.inr (true, c.mem))
  | .error, _ => some (.inr (false, c.mem))

/-- The parser until it stops. -/
def run : ℕ → Config Q T V σ → Option (Bool × σ)
  | 0, _ => none
  | fuel + 1, c => do
      match ← M.step fuel c with
      | .inl c => run fuel c
      | .inr r => some r

/-- With enough rounds the parser goes from one configuration to the other. -/
def Goes (c c' : Config Q T V σ) : Prop := ∃ N, ∀ fuel, N ≤ fuel → M.step fuel c = some (.inl c')

/-- With enough rounds the parser stops with a result. -/
def Halts (c : Config Q T V σ) (r : Bool × σ) : Prop :=
  ∃ N, ∀ fuel, N ≤ fuel → M.run fuel c = some r

/-- With enough rounds the parser gets from one configuration to the other. -/
abbrev Reaches : Config Q T V σ → Config Q T V σ → Prop := Relation.ReflTransGen M.Goes

/-- With enough rounds the parser gets from one configuration to the other, with no more symbols
on its stack on the way. -/
abbrev ReachesWithin (k : ℕ) : Config Q T V σ → Config Q T V σ → Prop :=
  Relation.ReflTransGen fun c c' => M.Goes c c' ∧ c'.stack.length ≤ k

/-- On the way from one configuration to the other so many symbols are the most on the stack. -/
structure Peaks (k : ℕ) (c c' : Config Q T V σ) : Prop where
  within : M.ReachesWithin k c c'
  attained : ∃ c₁, M.Reaches c c₁ ∧ c₁.stack.length = k

variable {M} {c c' c₁ c₂ : Config Q T V σ} {stack base : List (Q × V)} {input : List T}
  {mem mem' : σ} {q : Q} {r : R} {n : N} {t : T} {v : V} {res : Bool × σ} {k k' : ℕ}

theorem Goes.halts (h : M.Goes c c') (h' : M.Halts c' res) : M.Halts c res := by
  obtain ⟨N, hN⟩ := h
  obtain ⟨N', hN'⟩ := h'
  refine ⟨max N N' + 1, fun fuel hfuel => ?_⟩
  obtain ⟨fuel, rfl⟩ : ∃ k, fuel = k + 1 := ⟨fuel - 1, by omega⟩
  rw [run, hN fuel (by omega)]
  exact hN' fuel (by omega)

theorem Reaches.halts (h : M.Reaches c c') (h' : M.Halts c' res) : M.Halts c res := by
  induction h using Relation.ReflTransGen.head_induction_on with
  | refl => exact h'
  | head hgoes _ ih => exact hgoes.halts ih

theorem Goes.unique (h₁ : M.Goes c c₁) (h₂ : M.Goes c c₂) : c₁ = c₂ := by
  obtain ⟨N₁, h₁⟩ := h₁
  obtain ⟨N₂, h₂⟩ := h₂
  have heq := (h₁ _ (Nat.le_max_left N₁ N₂)).symm.trans (h₂ _ (Nat.le_max_right N₁ N₂))
  exact Sum.inl.inj (Option.some.inj heq)

theorem ReachesWithin.reaches (h : M.ReachesWithin k c c') : M.Reaches c c' :=
  Relation.ReflTransGen.mono (fun _ _ hgoes => hgoes.1) _ _ h

theorem ReachesWithin.mono (h : M.ReachesWithin k c c') (hk : k ≤ k') : M.ReachesWithin k' c c' :=
  Relation.ReflTransGen.mono (fun _ _ hgoes => ⟨hgoes.1, Nat.le_trans hgoes.2 hk⟩) _ _ h

theorem ReachesWithin.peaks (h : M.ReachesWithin k c c') (hk : c'.stack.length = k) :
    M.Peaks k c c' :=
  ⟨h, c', h.reaches, hk⟩

theorem Peaks.reaches (h : M.Peaks k c c') : M.Reaches c c' := h.within.reaches

theorem Peaks.trans (h : M.Peaks k c c₁) (h' : M.ReachesWithin k c₁ c') : M.Peaks k c c' :=
  ⟨Relation.ReflTransGen.trans h.within h', h.attained⟩

/-- All that a parser gets to is on its way to where it ends. -/
theorem ReachesWithin.length_le (h : M.ReachesWithin k c c') (hc : c.stack.length ≤ k)
    (hend : ∀ c₂, ¬ M.Goes c' c₂) (h₁ : M.Reaches c c₁) : c₁.stack.length ≤ k := by
  induction h using Relation.ReflTransGen.head_induction_on with
  | refl =>
      rcases h₁.cases_head with rfl | ⟨c₂, hgoes, -⟩
      · exact hc
      · exact absurd hgoes (hend c₂)
  | head hgoes _ ih =>
      rcases h₁.cases_head with rfl | ⟨c₂, hgoes₂, hreach⟩
      · exact hc
      · obtain rfl := hgoes.1.unique hgoes₂
        exact ih hgoes.2 hreach

theorem not_goes_accept (h : M.action (M.top stack) input.head? = .accept) (c' : Config Q T V σ) :
    ¬ M.Goes ⟨stack, input, mem⟩ c' := by
  rintro ⟨N, hN⟩
  simpa [step, h] using hN N N.le_refl

theorem goes_shift (h : M.action (M.top stack) (some t) = .shift q) :
    M.Goes ⟨stack, t :: input, mem⟩ ⟨(q, M.value t) :: stack, input, mem⟩ :=
  ⟨0, fun fuel _ => by simp [step, h]⟩

theorem goes_reduce (h : M.action (M.top stack) input.head? = .reduce r)
    (hact : ∃ N, ∀ fuel, N ≤ fuel → M.act fuel r (stack.map Prod.snd) mem = some (v, mem'))
    (hgoto : M.goto (M.top (stack.drop (M.size r))) (M.lhs r) = some q) :
    M.Goes ⟨stack, input, mem⟩ ⟨(q, v) :: stack.drop (M.size r), input, mem'⟩ := by
  obtain ⟨N, hN⟩ := hact
  refine ⟨N, fun fuel hfuel => ?_⟩
  simp [step, h, hN fuel hfuel, hgoto]

theorem halts_of_step (h : ∀ fuel, M.step fuel c = some (.inr res)) : M.Halts c res := by
  refine ⟨1, fun fuel hfuel => ?_⟩
  obtain ⟨fuel, rfl⟩ : ∃ k, fuel = k + 1 := ⟨fuel - 1, by omega⟩
  rw [run, h]
  rfl

theorem halts_accept (h : M.action (M.top stack) input.head? = .accept) :
    M.Halts ⟨stack, input, mem⟩ (true, mem) :=
  halts_of_step fun fuel => by simp [step, h]

theorem halts_error (h : M.action (M.top stack) input.head? = .error) :
    M.Halts ⟨stack, input, mem⟩ (false, mem) :=
  halts_of_step fun fuel => by simp [step, h]

/-- A rule `n : α n` that does nothing to the memory, where each block on the stack is an
`α`: once the last `n` is complete, all of them are. -/
theorem reaches_unwind {blocks : List (List (Q × V))} (hlhs : M.lhs r = n) (w : V)
    (hact : ∀ fuel vs, M.act fuel r vs mem = some (w, mem))
    (hblock : ∀ b ∈ blocks, M.size r = b.length + 1 ∧
      ∀ s, ∃ q, M.goto (M.top (b ++ s)) n = some q ∧ M.action q input.head? = .reduce r)
    (hq : M.goto (M.top base) n = some q) (hk : (blocks.flatten ++ base).length + 1 ≤ k) :
    ∃ q', M.goto (M.top (blocks.flatten ++ base)) n = some q' ∧
      M.ReachesWithin k ⟨(q', w) :: (blocks.flatten ++ base), input, mem⟩
        ⟨(q, w) :: base, input, mem⟩ := by
  induction blocks with
  | nil => exact ⟨q, hq, .refl⟩
  | cons b blocks ih =>
      rw [List.flatten_cons, List.append_assoc, List.length_append] at hk
      have hk' : (blocks.flatten ++ base).length + 1 ≤ k := by omega
      obtain ⟨q₁, hq₁, hreach⟩ := ih (fun b' hb' => hblock b' (List.mem_cons_of_mem b hb')) hk'
      obtain ⟨hsize, hgo⟩ := hblock b List.mem_cons_self
      obtain ⟨q₂, hq₂, hreduce⟩ := hgo (blocks.flatten ++ base)
      have hdrop : ((q₂, w) :: (b ++ (blocks.flatten ++ base))).drop (M.size r) =
          blocks.flatten ++ base := by
        rw [hsize, List.drop_succ_cons, List.drop_left]
      rw [List.flatten_cons, List.append_assoc]
      have hgoes : M.Goes ⟨(q₂, w) :: (b ++ (blocks.flatten ++ base)), input, mem⟩ _ :=
        goes_reduce hreduce ⟨0, fun fuel _ => hact fuel _⟩ (by rw [hdrop, hlhs]; exact hq₁)
      rw [hdrop] at hgoes
      exact ⟨q₂, hq₂, .head ⟨hgoes, hk'⟩ hreach⟩

end Automaton

end ShiftReduce

end Infra
