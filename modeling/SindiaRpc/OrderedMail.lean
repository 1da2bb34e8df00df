import SindiaRpc.Interleavings
import Mathlib.Data.List.Infix

/-!
# Machines that take each other's messages in turn

A machine has ports. It keeps, for each port, the messages it has sent there and
those it has taken there. A port leads to a port of some machine or nowhere; at
one that leads somewhere a machine takes the messages in turn, each when it has
been sent. What was taken is then always the first part of what was sent.
-/
namespace SindiaRpc.OrderedMail
open GuardedRuns

structure Machine (σ ε μ : Type*) where
  move : σ → ε → Option σ
  sent : σ → ℕ → List μ
  taken : σ → ℕ → List μ
  /-- The port at which an event takes a message, and the message. -/
  takes : ε → Option (ℕ × μ)
  sent_move : ∀ {s e t}, move s e = some t → ∀ k, sent s k <+: sent t k
  taken_own : ∀ {s e t k m}, move s e = some t → takes e = some (k,m) → taken t k = taken s k ++ [m]
  taken_other : ∀ {s e t k}, move s e = some t → (∀ m, takes e ≠ some (k,m)) → taken t k = taken s k

variable {ι σ ε μ : Type*} (P : Machine σ ε μ) (peer : ι → ℕ → Option (ι × ℕ))

/-- The message taken is the next one sent at the other end. -/
def InTurn (s : ι → σ) (a : ι) (e : ε) : Prop :=
  ∀ x ∈ P.takes e, ∀ l ∈ peer a x.1, P.taken (s a) x.1 ++ [x.2] <+: P.sent (s l.1) l.2

instance [DecidableEq μ] (s : ι → σ) (a : ι) (e : ε) : Decidable (InTurn P peer s a e) :=
  inferInstanceAs (Decidable (∀ x ∈ P.takes e, ∀ l ∈ peer a x.1, _ <+: _))

def step [DecidableEq ι] [DecidableEq μ] : (ι → σ) → ι × ε → Option (ι → σ) :=
  Interleavings.step P.move (InTurn P peer)

/-- What was taken is the first part of what was sent. -/
def Ordered (s : ι → σ) : Prop :=
  ∀ a k, ∀ l ∈ peer a k, P.taken (s a) k <+: P.sent (s l.1) l.2

variable [DecidableEq ι] [DecidableEq μ] {P peer} {s t : ι → σ} {e : ι × ε} {es : List (ι × ε)}

theorem sent_step (hs : step P peer s e = some t) (a : ι) (k : ℕ) :
    P.sent (s a) k <+: P.sent (t a) k := by
  obtain ⟨b,e⟩ := e
  obtain ⟨_,u,hu,rfl⟩ := Interleavings.step_eq_some.mp hs
  by_cases ha : a = b
  · subst ha
    rw [Function.update_self]
    exact P.sent_move hu k
  · rw [Function.update_of_ne ha]

theorem Ordered.step (h : Ordered P peer s) (hs : OrderedMail.step P peer s e = some t) :
    Ordered P peer t := by
  intro a k l hl
  apply List.IsPrefix.trans ?_ (sent_step hs l.1 l.2)
  obtain ⟨b,e⟩ := e
  obtain ⟨hturn,u,hu,rfl⟩ := Interleavings.step_eq_some.mp hs
  by_cases ha : a = b
  · subst ha
    rw [Function.update_self]
    by_cases htakes : ∃ m, P.takes e = some (k,m)
    · obtain ⟨m,hm⟩ := htakes
      rw [P.taken_own hu hm]
      exact hturn (k,m) hm l hl
    · rw [P.taken_other hu fun m hm => htakes ⟨m,hm⟩]
      exact h a k l hl
  · rw [Function.update_of_ne ha]
    exact h a k l hl

theorem run_ordered (hs : ∀ a k, P.taken (s a) k = []) (h : exec (step P peer) s es = some t) :
    Ordered P peer t := by
  apply exec_preserves (OrderedMail.step P peer) (P := Ordered P peer)
    (fun _ _ _ hu hv => hu.step hv) ?_ h
  intro a k l _
  rw [hs]
  exact List.nil_prefix

end SindiaRpc.OrderedMail
