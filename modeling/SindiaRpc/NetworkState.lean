import SindiaRpc.Interleavings
import SindiaRpc.NodeHistories
import Mathlib.Data.List.Infix

/-!
# Processes connected by streams

A connection has its other end at a process of the network or outside. A stream
gives its reader the bytes the other end has sent, in order and with any delay;
what comes from outside is arbitrary. The processes take their steps in any
order, so seen from one of them a run of the network is a run of a node.
-/
namespace SindiaRpc.NetworkState
open MessageFrames ConnectionState ConnectionWrites ReadLoop StreamReading StreamContents
  ConnectionHistories NodeState NodeHistories GuardedRuns

/-- The other ends of the connections that lead to processes of the network. -/
abbrev Peers (ι : Type*) := ι → ℕ → Option (ι × ℕ)

def received (n : Node) (k : ℕ) : Bytes := (n.conns[k]?.map Connection.received).getD []

def wire (n : Node) (k : ℕ) : Bytes := (n.conns[k]?.map Connection.wire).getD []

section Network
variable {ι : Type*}

/-- What arrives is the next part of what the other end has sent. -/
def Delivers (peer : Peers ι) (net : ι → Node) (a : ι) : NodeState.Event → Prop
  | .io k (.receive bytes) => ∀ l ∈ peer a k, received (net a) k ++ bytes <+: wire (net l.1) l.2
  | _ => True

instance (peer : Peers ι) (net : ι → Node) (a : ι) : ∀ e, Decidable (Delivers peer net a e)
  | .io k (.receive bytes) =>
      inferInstanceAs (Decidable (∀ l ∈ peer a k, received (net a) k ++ bytes <+: _))
  | .io _ (.readReady _) | .io _ (.readFail _ _) | .io _ (.runRead _ _) | .io _ (.callWrite _)
  | .io _ (.sendChunk _ _) | .io _ (.writeReady _) | .io _ (.writeFail _ _) | .io _ (.runWrite _)
  | .io _ .callStop | .thread _ | .accept _ | .connect _ | .runRead _ _ =>
      inferInstanceAs (Decidable True)

def step [DecidableEq ι] (H : Bytes → ℕ) (abi : Abi) (peer : Peers ι) :
    (ι → Node) → ι × NodeState.Event → Option (ι → Node) :=
  Interleavings.step (NodeState.step H abi) (Delivers peer)

/-- No process has done anything. -/
def start : ι → Node := fun _ => Node.empty

/-- Nothing is received that the other end has not sent. -/
def Linked (peer : Peers ι) (net : ι → Node) : Prop :=
  ∀ a k, ∀ l ∈ peer a k, received (net a) k <+: wire (net l.1) l.2

end Network

/-! ### The streams of one process -/

section Nodes
variable {H : Bytes → ℕ} {abi : Abi} {n n' : Node} {e : NodeState.Event} {k j : ℕ}
  {c c' : Connection} {ce : ConnectionState.Event} {addr : String}

theorem received_eq (h : n.conns[k]? = some c) : received n k = c.received := by
  rw [received,h]
  rfl

theorem wire_eq (h : n.conns[k]? = some c) : wire n k = c.wire := by
  rw [wire,h]
  rfl

theorem fresh_received (h : c = started .empty true addr ∨ greeted H abi addr = some c) :
    c.received = [] := by
  rcases h with rfl | h
  · rfl
  · simp only [greeted,Option.bind_eq_bind,Option.bind_eq_some_iff] at h
    obtain ⟨msg,_,hwrite⟩ := h
    exact congrArg Histories.received (histories_write hwrite)

/-- Bytes arrive by `receive` only. -/
theorem received_step (hs : NodeState.step H abi n e = some n') (k : ℕ) :
    received n' k = received n k ∨
      ∃ bytes, e = .io k (.receive bytes) ∧ received n' k = received n k ++ bytes := by
  rcases step_conn hs k with hsame | ⟨addr,c,hfresh,hnone,hc⟩ | ⟨c,c',ce,he,hmoves,hc,hc'⟩
  · left
    rw [received,received,hsame]
  · left
    rw [received_eq hc,fresh_received hfresh,received,hnone]
    rfl
  · have hrec : c'.received = c.received ++ arriving ce :=
      congrArg Histories.received (step_histories hmoves)
    rw [received_eq hc,received_eq hc',hrec]
    cases ce with
    | receive bytes =>
        rcases he with rfl | he
        · exact Or.inr ⟨bytes,rfl,rfl⟩
        · exact absurd trivial he
    | readReady _ | readFail _ _ | runRead _ _ | callWrite _ | sendChunk _ _ | writeReady _
    | writeFail _ _ | runWrite _ | callStop => exact Or.inl (List.append_nil _)

/-- What has been sent stays sent. -/
theorem wire_step (hs : NodeState.step H abi n e = some n') (k : ℕ) : wire n k <+: wire n' k := by
  rcases step_conn hs k with hsame | ⟨addr,c,_,hnone,_⟩ | ⟨c,c',ce,_,hmoves,hc,hc'⟩
  · rw [wire,wire,hsame]
  · rw [wire,hnone]
    exact List.nil_prefix
  · have hwire : c'.wire = c.wire ++ sending c ce :=
      congrArg Histories.wire (step_histories hmoves)
    rw [wire_eq hc,wire_eq hc',hwire]
    exact List.prefix_append _ _

/-- Whatever is passed to `Write` on connection `j` finds nothing unsent there. -/
def Paced (H : Bytes → ℕ) (abi : Abi) (j : ℕ) (n : Node) (e : NodeState.Event) : Prop :=
  ∀ n' ∈ NodeState.step H abi n e, ∀ c ∈ n.conns[j]?, ∀ c' ∈ n'.conns[j]?, Unhurried c c'

instance (H : Bytes → ℕ) (abi : Abi) (j : ℕ) (n : Node) (e : NodeState.Event) :
    Decidable (Paced H abi j n e) := inferInstanceAs (Decidable (∀ n' ∈ _, _))

/-- The greeting is the first write. -/
theorem fresh_sequenced (h : c = started .empty true addr ∨ greeted H abi addr = some c) :
    Sequenced abi c := by
  have hstarted := (started_unwritten .empty true addr).sequenced abi
  rcases h with rfl | h
  · exact hstarted
  · simp only [greeted,Option.bind_eq_bind,Option.bind_eq_some_iff] at h
    obtain ⟨msg,_,hwrite⟩ := h
    have hidle : WritesIdle (started .empty true addr) := by
      intro op hop
      cases hop
    exact hstarted.write hidle hwrite

theorem node_sequenced {es : List NodeState.Event}
    (hrun : exec (NodeState.step H abi) Node.empty es = some n)
    (hpaced : AllSteps (NodeState.step H abi) (Paced H abi j) Node.empty es)
    (hc : n.conns[j]? = some c) : Sequenced abi c := by
  have hall : AllStates (NodeState.step H abi)
      (fun n => ∀ c, n.conns[j]? = some c → Sequenced abi c) Node.empty es := by
    apply allStates_of_allSteps ?_ nofun hpaced
    intro n e n' hn hp hs d hd
    rcases step_conn hs j with hsame | ⟨addr,c,hfresh,_,hc⟩ | ⟨c,c',ce,_,hmoves,hc,hc'⟩
    · exact hn d (hsame ▸ hd)
    · obtain rfl := Option.some.inj (hc.symm.trans hd)
      exact fresh_sequenced hfresh
    · obtain rfl := Option.some.inj (hc'.symm.trans hd)
      exact sequenced_step (hn c hc) (hp n' hs c hc c' hc') hmoves
  exact hall.last hrun c hc

end Nodes

/-! ### Runs of the network -/

section Runs
variable {ι : Type*} [DecidableEq ι] {H : Bytes → ℕ} {abi : Abi} {peer : Peers ι} {a b : ι}
  {net net' : ι → Node} {e : ι × NodeState.Event} {es : List (ι × NodeState.Event)}

theorem Linked.step (h : Linked peer net) (hs : NetworkState.step H abi peer net e = some net') :
    Linked peer net' := by
  obtain ⟨c,e⟩ := e
  obtain ⟨hdelivers,n,hn,rfl⟩ := Interleavings.step_eq_some.mp hs
  have hwire : ∀ b j, wire (net b) j <+: wire (Function.update net c n b) j := by
    intro b j
    by_cases hb : b = c
    · subst hb
      rw [Function.update_self]
      exact wire_step hn j
    · rw [Function.update_of_ne hb]
  intro a k l hl
  refine List.IsPrefix.trans ?_ (hwire l.1 l.2)
  by_cases ha : a = c
  · subst ha
    rw [Function.update_self]
    rcases received_step hn k with hsame | ⟨bytes,rfl,hmore⟩
    · rw [hsame]
      exact h a k l hl
    · rw [hmore]
      exact hdelivers l hl
  · rw [Function.update_of_ne ha]
    exact h a k l hl

theorem run_linked (h : exec (NetworkState.step H abi peer) start es = some net) :
    Linked peer net := by
  apply exec_preserves (NetworkState.step H abi peer) (P := Linked peer)
    (fun _ _ _ hn hs => hn.step hs) ?_ h
  intro a k l hl
  exact List.nil_prefix

/-- Every process of the network is in a state of its own runs. -/
theorem run_node (h : exec (NetworkState.step H abi peer) start es = some net) (a : ι) :
    exec (NodeState.step H abi) Node.empty (Interleavings.eventsOf a es) = some (net a) :=
  Interleavings.exec_member h a

/-- All writes on connection `l.2` of process `l.1` find nothing unsent. -/
def PacedAt (H : Bytes → ℕ) (abi : Abi) (l : ι × ℕ) (net : ι → Node) (e : ι × NodeState.Event) :
    Prop := e.1 = l.1 → Paced H abi l.2 (net l.1) e.2

instance (H : Bytes → ℕ) (abi : Abi) (l : ι × ℕ) (net : ι → Node) (e : ι × NodeState.Event) :
    Decidable (PacedAt H abi l net e) := inferInstanceAs (Decidable (_ → _))

theorem run_sequenced {l : ι × ℕ} {c : Connection}
    (h : exec (NetworkState.step H abi peer) start es = some net)
    (hpaced : AllSteps (NetworkState.step H abi peer) (PacedAt H abi l) start es)
    (hc : (net l.1).conns[l.2]? = some c) : Sequenced abi c :=
  node_sequenced (run_node h l.1) (Interleavings.allSteps_member hpaced h) hc

end Runs
end SindiaRpc.NetworkState
