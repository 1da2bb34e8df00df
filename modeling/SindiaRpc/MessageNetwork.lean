import SindiaRpc.NetworkDelivery
import SindiaRpc.OrderedMail

/-!
# The network without its streams

What the connections are for: a process passes messages to its ports, and takes
the contents of the messages passed to the other ends, in turn. Nothing of reads,
bytes, sockets and buffers is left. A run of the network in which everything
written finds nothing unsent on its connection is a run of this one: the
processes take the same steps.
-/
namespace SindiaRpc.MessageNetwork
open MessageFrames DispatcherTable RpcChannel RpcProcess ConnectionState ConnectionWrites ReadLoop
  StreamReading StreamContents ConnectionHistories ProcessWrites NodeState NodeHistories
  NetworkState NetworkDelivery OrderedMail GuardedRuns
open ClientState (hello)

/-- A process and the messages it has passed to its ports. -/
structure Endpoint where
  process : Process ℕ := init none
  /-- The ports opened so far. -/
  opened : ℕ := 0
  posts : List (ℕ × Message) := []

inductive Event where
  | thread (e : RpcProcess.Event ℕ)
  /-- A port is opened, with or without a first message. -/
  | opens (greeting : Option Message)
  | dispatch (k : ℕ) (msg : Message)

/-- What threads do. -/
def Threads : RpcProcess.Event ℕ → Prop
  | .receive _ _ => False
  | .setConnection _ | .reghandler _ _ | .call _ _ _ | .run _ | .expire _ => True

instance : ∀ e, Decidable (Threads e)
  | .receive _ _ => inferInstanceAs (Decidable False)
  | .setConnection _ | .reghandler _ _ | .call _ _ _ | .run _ | .expire _ =>
      inferInstanceAs (Decidable True)

/-- The process takes a step and posts what it writes. -/
def Endpoint.advance (H : Bytes → ℕ) (o : ByteOrder) (e : RpcProcess.Event ℕ) (m : Endpoint) :
    Option Endpoint := do
  let p ← RpcProcess.step H o m.process e
  some {m with process := p, posts := m.posts ++ posted m.process p}

def move (H : Bytes → ℕ) (o : ByteOrder) (m : Endpoint) : Event → Option Endpoint
  | .thread e => if Threads e then m.advance H o e else none
  | .opens greeting => some {m with
      opened := m.opened + 1
      posts := m.posts ++ greeting.toList.map fun msg => (m.opened,msg)}
  | .dispatch k msg => m.advance H o (.receive k msg)

def sent (m : Endpoint) (k : ℕ) : List Content := (on k m.posts).map content

def taken (m : Endpoint) (k : ℕ) : List Content := (on k m.process.received).map content

def takes : Event → Option (ℕ × Content)
  | .dispatch k msg => some (k,content msg)
  | .thread _ | .opens _ => none

section Machine
variable {H : Bytes → ℕ} {o : ByteOrder} {m m' : Endpoint} {e : Event} {pe : RpcProcess.Event ℕ}
  {k : ℕ} {msg : Message}

theorem advance_eq_some : m.advance H o pe = some m' ↔ ∃ p,
    RpcProcess.step H o m.process pe = some p ∧
      m' = {m with process := p, posts := m.posts ++ posted m.process p} := by
  simp only [Endpoint.advance,Option.bind_eq_bind,Option.bind_eq_some_iff,Option.some.injEq,
    eq_comm (b := m')]

theorem move_thread : move H o m (.thread pe) = some m' ↔ Threads pe ∧ m.advance H o pe = some m' := by
  simp only [move,Option.ite_none_right_eq_some]

/-- Nothing that was posted is taken back. -/
theorem posts_move (hs : move H o m e = some m') : m.posts <+: m'.posts := by
  cases e with
  | thread pe =>
      obtain ⟨p,_,rfl⟩ := advance_eq_some.mp (move_thread.mp hs).2
      exact List.prefix_append _ _
  | opens greeting =>
      cases hs
      exact List.prefix_append _ _
  | dispatch k msg =>
      obtain ⟨p,_,rfl⟩ := advance_eq_some.mp hs
      exact List.prefix_append _ _

theorem sent_move (hs : move H o m e = some m') (k : ℕ) : sent m k <+: sent m' k := by
  exact (((posts_move hs).filter _).map _).map _

/-- Only a dispatch takes a message. -/
theorem received_move (hs : move H o m e = some m') : m'.process.received = m.process.received ++
    match e with
    | .dispatch k msg => [(k,msg)]
    | .thread _ | .opens _ => [] := by
  cases e with
  | thread pe =>
      obtain ⟨hpe,hadvance⟩ := move_thread.mp hs
      obtain ⟨p,hp,rfl⟩ := advance_eq_some.mp hadvance
      rw [step_received hp]
      cases pe with
      | receive k msg => exact hpe.elim
      | reghandler _ _ | setConnection _ | call _ _ _ | run _ | expire _ => rfl
  | opens greeting =>
      cases hs
      exact (List.append_nil _).symm
  | dispatch k msg =>
      obtain ⟨p,hp,rfl⟩ := advance_eq_some.mp hs
      exact step_received hp

theorem taken_own {x : Content} (hs : move H o m e = some m') (htakes : takes e = some (k,x)) :
    taken m' k = taken m k ++ [x] := by
  cases e with
  | thread _ | opens _ => cases htakes
  | dispatch j msg =>
      cases htakes
      rw [taken,received_move hs,on_append,on_same,List.map_append]
      rfl

theorem taken_other (hs : move H o m e = some m') (htakes : ∀ x, takes e ≠ some (k,x)) :
    taken m' k = taken m k := by
  rw [taken,received_move hs,on_append]
  cases e with
  | thread _ | opens _ => exact congrArg _ (List.append_nil _)
  | dispatch j msg =>
      have hj : j ≠ k := by
        rintro rfl
        exact htakes _ rfl
      rw [on_other hj,List.append_nil]
      rfl

end Machine

/-- A process and its ports. -/
def machine (H : Bytes → ℕ) (o : ByteOrder) : Machine Endpoint Event Content where
  move := move H o
  sent := sent
  taken := taken
  takes := takes
  sent_move := sent_move
  taken_own := taken_own
  taken_other := taken_other

def step {ι : Type*} [DecidableEq ι] (H : Bytes → ℕ) (o : ByteOrder) (peer : Peers ι) :
    (ι → Endpoint) → ι × Event → Option (ι → Endpoint) :=
  OrderedMail.step (machine H o) peer

/-! ### One process -/

/-- The endpoint that a node implements. -/
structure Abstracts (n : Node) (m : Endpoint) : Prop where
  process : m.process = n.process
  opened : m.opened = n.conns.length
  posts : ∀ (k : ℕ) (c : Connection), n.conns[k]? = some c → c.written = on k m.posts
  unused : ∀ k, n.conns.length ≤ k → on k m.posts = []

section Nodes
variable {H : Bytes → ℕ} {abi : Abi} {o : ByteOrder} {n n' : Node} {m : Endpoint}
  {e : NodeState.Event} {k : ℕ} {c c' : Connection} {ce : ConnectionState.Event}

theorem Abstracts.opens (h : Abstracts n m) {addr : String}
    (hfresh : e = .accept addr ∧ c = started .empty true addr ∨
      e = .connect addr ∧ greeted H abi addr = some c)
    (hprocess : n'.process = n.process) (hconns : n'.conns = n.conns ++ [c]) :
    ∃ greeting m', move H o m (.opens greeting) = some m' ∧ Abstracts n' m' := by
  obtain ⟨_,_,greeting,_,hwritten⟩ := fresh_connection hfresh
  refine ⟨greeting,_,rfl,?_,?_,?_,?_⟩
  · rw [hprocess]
    exact h.process
  · rw [hconns,List.length_append,List.length_singleton]
    exact congrArg (· + 1) h.opened
  · intro k d hd
    rw [hconns] at hd
    rw [h.opened,on_append]
    rcases ListUpdates.getElem?_concat_cases hd with hd | ⟨rfl,rfl⟩
    · have hk : k < n.conns.length := (List.getElem?_eq_some_iff.mp hd).choose
      rw [on_tagged_other (by omega),List.append_nil]
      exact h.posts k d hd
    · rw [on_tagged,h.unused _ le_rfl,hwritten]
      rfl
  · intro k hk
    rw [hconns,List.length_append,List.length_singleton] at hk
    rw [h.opened,on_append,on_tagged_other (by omega),h.unused k (by omega)]
    rfl

theorem Abstracts.moved (h : Abstracts n m) (hc : n.conns[k]? = some c)
    (hmoves : ConnectionState.step abi c ce = some c')
    (hwrites : n'.process.writes = n.process.writes ++ (writing c ce).toList.map fun m => (k,m))
    (hconns : n'.conns = n.conns.set k c') : Abstracts n'
      {m with process := n'.process, posts := m.posts ++ posted n.process n'.process} := by
  have hlt : k < n.conns.length := (List.getElem?_eq_some_iff.mp hc).choose
  rw [posted_of_append hwrites]
  refine ⟨rfl,?_,?_,?_⟩
  · rw [hconns,List.length_set]
    exact h.opened
  · intro j d hd
    rw [hconns] at hd
    rw [on_append]
    rcases ListUpdates.getElem?_set_cases hd with ⟨rfl,rfl⟩ | ⟨hj,hd⟩
    · rw [on_tagged,← h.posts j c hc]
      exact congrArg Histories.written (step_histories hmoves)
    · rw [on_tagged_other (Ne.symm hj),List.append_nil]
      exact h.posts j d hd
  · intro j hj
    rw [hconns,List.length_set] at hj
    rw [on_append,on_tagged_other (by omega),List.append_nil]
    exact h.unused j hj

/-- A response or a request that is dispatched is the one that was read. -/
theorem incoming_of_received {p p' : Process ℕ} {msg : Message}
    (hs : RpcProcess.step H o p (.receive k msg) = some p')
    (hreceived : p'.received = p.received ++ (dispatching c ce).toList.map fun m => (k,m)) :
    ∃ i, incoming c i = some msg := by
  have hone := List.append_cancel_left (hreceived.symm.trans (step_received hs))
  cases hd : dispatching c ce with
  | none =>
      rw [hd] at hone
      cases hone
  | some m =>
      rw [hd] at hone
      cases hone
      cases ce with
      | runRead i reply => exact ⟨i,hd⟩
      | receive _ | readReady _ | readFail _ _ | callWrite _ | sendChunk _ _ | writeReady _
      | writeFail _ _ | runWrite _ | callStop => cases hd

/-- A step of a node is a step of its endpoint or none, and what the endpoint takes
is what the node dispatches. -/
theorem Abstracts.step (h : Abstracts n m) (hs : NodeState.step H (lp64 o) n e = some n') :
    Abstracts n' m ∨ ∃ e' m', move H o m e' = some m' ∧ Abstracts n' m' ∧
      ∀ k x, takes e' = some (k,x) → ∃ c i msg, n.conns[k]? = some c ∧
        incoming c i = some msg ∧ x = content msg := by
  have hadvance : ∀ pe, RpcProcess.step H o n.process pe = some n'.process →
      m.advance H o pe = some {m with
        process := n'.process
        posts := m.posts ++ posted n.process n'.process} := by
    intro pe hpe
    rw [← h.process] at hpe ⊢
    exact advance_eq_some.mpr ⟨_,hpe,rfl⟩
  have hthread : ∀ pe, e = .thread pe → Threads pe := by
    rintro pe rfl
    obtain ⟨hlocal,_⟩ := step_thread.mp hs
    cases pe with
    | receive k msg => exact hlocal.elim
    | reghandler _ _ | setConnection _ | call _ _ _ | run _ | expire _ => trivial
  cases step_change hs with
  | process pe event steps received writes conns =>
      refine Or.inr ⟨.thread pe,_,move_thread.mpr ⟨hthread pe event,hadvance pe steps⟩,?_,nofun⟩
      rw [posted_of_append (writes.trans (List.append_nil _).symm),List.append_nil]
      refine ⟨rfl,?_,?_,?_⟩
      · rw [conns]
        exact h.opened
      · rw [conns]
        exact h.posts
      · rw [conns]
        exact h.unused
  | opened addr c fresh process conns =>
      obtain ⟨greeting,m',hmove,hm'⟩ := h.opens (o := o) fresh process conns
      exact Or.inr ⟨.opens greeting,m',hmove,hm',nofun⟩
  | moved k c c' ce mem event moves process received writes conns =>
      have hm' := h.moved mem moves writes conns
      rcases process with heq | ⟨pe,hpe | ⟨msg,rfl⟩,steps⟩
      · left
        rw [heq,posted_of_append (List.append_nil _).symm,List.append_nil,← h.process] at hm'
        exact hm'
      · exact Or.inr ⟨.thread pe,_,move_thread.mpr ⟨hthread pe hpe,hadvance pe steps⟩,hm',nofun⟩
      · refine Or.inr ⟨.dispatch k msg,_,hadvance _ steps,hm',?_⟩
        intro j x htakes
        cases htakes
        obtain ⟨i,hin⟩ := incoming_of_received steps received
        exact ⟨c,i,msg,mem,hin,rfl⟩

end Nodes

/-! ### Refinement -/

section Relation
variable {ι : Type*} {H : Bytes → ℕ} {o : ByteOrder} {peer : Peers ι} {net : ι → Node}
  {mail : ι → Endpoint}

/-- Whatever a step of the network writes finds nothing unsent on its connection. -/
def Unforced (H : Bytes → ℕ) (abi : Abi) (net : ι → Node) (e : ι × NodeState.Event) : Prop :=
  ∀ n' ∈ NodeState.step H abi (net e.1) e.2, ∀ cs ∈ (net e.1).conns.zip n'.conns,
    Unhurried cs.1 cs.2

instance (H : Bytes → ℕ) (abi : Abi) (net : ι → Node) (e : ι × NodeState.Event) :
    Decidable (Unforced H abi net e) := inferInstanceAs (Decidable (∀ n' ∈ _, _))

structure Refines (H : Bytes → ℕ) (o : ByteOrder) (peer : Peers ι) (net : ι → Node)
    (mail : ι → Endpoint) : Prop where
  linked : Linked peer net
  composed : ∀ a, Composed H (lp64 o) (net a)
  sequenced : ∀ a (k : ℕ) (c : Connection), (net a).conns[k]? = some c → Sequenced (lp64 o) c
  abstracts : ∀ a, Abstracts (net a) (mail a)

theorem sequenced_conns {n n' : Node} {e : NodeState.Event} {abi : Abi}
    (h : ∀ (k : ℕ) (c : Connection), n.conns[k]? = some c → Sequenced abi c)
    (hpaced : ∀ cs ∈ n.conns.zip n'.conns, Unhurried cs.1 cs.2)
    (hs : NodeState.step H abi n e = some n') :
    ∀ (k : ℕ) (c : Connection), n'.conns[k]? = some c → Sequenced abi c := by
  intro k d hd
  rcases step_conn hs k with hsame | ⟨addr,c,hfresh,_,hc⟩ | ⟨c,c',ce,_,hmoves,hc,hc'⟩
  · exact h k d (hsame ▸ hd)
  · obtain rfl := Option.some.inj (hc.symm.trans hd)
    exact fresh_sequenced hfresh
  · obtain rfl := Option.some.inj (hc'.symm.trans hd)
    have hzip : (n.conns.zip n'.conns)[k]? = some (c,c') :=
      List.getElem?_zip_eq_some.mpr ⟨hc,hc'⟩
    exact sequenced_step (h k c hc) (hpaced _ (List.mem_of_getElem? hzip)) hmoves

/-- Whatever has arrived at a connection is read as its other end wrote it. -/
theorem Refines.reads (h : Refines H o peer net mail) {a : ι} {k : ℕ} {l : ι × ℕ}
    {c d : Connection} (hpeer : peer a k = some l) (hc : (net a).conns[k]? = some c)
    (hd : (net l.1).conns[l.2]? = some d) : Reads o d c := by
  refine ⟨(h.composed a).consumed hc,h.sequenced _ _ d hd,(h.composed _).built hd,?_⟩
  have hstream := h.linked a k l hpeer
  rwa [received_eq hc,wire_eq hd] at hstream

/-- A message that a node dispatches is the next one for its endpoint. -/
theorem Refines.inTurn (h : Refines H o peer net mail) {a : ι} {k i : ℕ} {c : Connection}
    {msg : Message} (hc : (net a).conns[k]? = some c) (hin : incoming c i = some msg) {l : ι × ℕ}
    (hpeer : peer a k = some l) :
    taken (mail a) k ++ [content msg] <+: sent (mail l.1) l.2 := by
  obtain ⟨hdelivered,hfront⟩ := incoming_received ((h.composed a).consumed hc).inv hin
  have hall : ∀ m ∈ c.dispatched ++ [msg], Delivered (lp64 o) m :=
    List.forall_mem_append.mpr
      ⟨((h.composed a).consumed hc).inv.delivered,List.forall_mem_singleton.mpr hdelivered⟩
  have hne := ne_nil_of_front hall hfront (List.mem_append_right _ (List.mem_singleton_self msg))
  obtain ⟨d,hd⟩ := far_end h.linked hpeer hc hne
  have hmore := (h.reads hpeer hc hd).incoming hin
  rw [List.map_append,(h.composed a).dispatched k c hc,← (h.abstracts a).process,
    (h.abstracts l.1).posts _ d hd] at hmore
  exact hmore

theorem start_refines : Refines H o peer (start : ι → Node) fun _ => {} := by
  have hempty : exec (NodeState.step H (lp64 o)) Node.empty [] = some Node.empty := rfl
  refine ⟨fun _ _ _ _ => List.nil_prefix,fun _ => node_composed hempty,?_,?_⟩
  · intro a k c hc
    cases hc
  · intro a
    refine ⟨rfl,rfl,?_,fun _ _ => rfl⟩
    intro k c hc
    cases hc

end Relation

section Refinement
variable {ι : Type*} [DecidableEq ι] {H : Bytes → ℕ} {o : ByteOrder} {peer : Peers ι}
  {net net' : ι → Node} {mail : ι → Endpoint} {e : ι × NodeState.Event}

theorem Refines.step (h : Refines H o peer net mail) (hpaced : Unforced H (lp64 o) net e)
    (hs : NetworkState.step H (lp64 o) peer net e = some net') :
    Refines H o peer net' mail ∨ ∃ e' mail', MessageNetwork.step H o peer mail e' = some mail' ∧
      Refines H o peer net' mail' := by
  have hlinked := h.linked.step hs
  obtain ⟨a,e⟩ := e
  obtain ⟨_,n',hn',rfl⟩ := Interleavings.step_eq_some.mp hs
  have hcomposed : ∀ b, Composed H (lp64 o) (Function.update net a n' b) := by
    intro b
    by_cases hb : b = a
    · subst hb
      rw [Function.update_self]
      exact (h.composed b).step hn'
    · rw [Function.update_of_ne hb]
      exact h.composed b
  have hsequenced : ∀ b (k : ℕ) (c : Connection),
      (Function.update net a n' b).conns[k]? = some c → Sequenced (lp64 o) c := by
    intro b
    by_cases hb : b = a
    · subst hb
      rw [Function.update_self]
      exact sequenced_conns (h.sequenced b) (hpaced n' hn') hn'
    · rw [Function.update_of_ne hb]
      exact h.sequenced b
  rcases (h.abstracts a).step hn' with hsame | ⟨e',m',hmove,hm',htakes⟩
  · left
    refine ⟨hlinked,hcomposed,hsequenced,?_⟩
    intro b
    by_cases hb : b = a
    · subst hb
      rwa [Function.update_self]
    · rw [Function.update_of_ne hb]
      exact h.abstracts b
  · right
    refine ⟨(a,e'),Function.update mail a m',?_,hlinked,hcomposed,hsequenced,?_⟩
    · refine Interleavings.step_eq_some.mpr ⟨?_,m',hmove,rfl⟩
      intro x hx l hl
      obtain ⟨c,i,msg,hc,hin,hcontent⟩ := htakes x.1 x.2 hx
      have hturn := h.inTurn hc hin hl
      rwa [← hcontent] at hturn
    · intro b
      by_cases hb : b = a
      · subst hb
        rwa [Function.update_self,Function.update_self]
      · rw [Function.update_of_ne hb,Function.update_of_ne hb]
        exact h.abstracts b

theorem run_refines {es : List (ι × NodeState.Event)}
    (hrun : exec (NetworkState.step H (lp64 o) peer) start es = some net)
    (hpaced : AllSteps (NetworkState.step H (lp64 o) peer) (Unforced H (lp64 o)) start es) :
    ∃ fs mail, exec (MessageNetwork.step H o peer) (fun _ => {}) fs = some mail ∧
      Refines H o peer net mail := by
  have hstep : ∀ net e net' mail, Refines H o peer net mail → Unforced H (lp64 o) net e →
      NetworkState.step H (lp64 o) peer net e = some net' → Refines H o peer net' mail ∨
        ∃ e' mail', True ∧ MessageNetwork.step H o peer mail e' = some mail' ∧
          Refines H o peer net' mail' := by
    intro net e net' mail hR hC hs
    refine (hR.step hC hs).imp_right fun hex => ?_
    obtain ⟨e',mail',hnext⟩ := hex
    exact ⟨e',mail',trivial,hnext⟩
  obtain ⟨fs,mail,_,hfs,hmail⟩ := exec_simulates hstep start_refines hpaced hrun
  exact ⟨fs,mail,hfs,hmail⟩

end Refinement

/-- A run of the network in which whatever is written finds nothing unsent on its
connection is matched by a run without streams: the processes end in the same
states, and each has posted on its ports what it wrote on its connections. -/
theorem network_refines {ι : Type*} [DecidableEq ι] (H : Bytes → ℕ) (o : ByteOrder)
    (peer : Peers ι) (es : List (ι × NodeState.Event)) (net : ι → Node)
    (hrun : exec (NetworkState.step H (lp64 o) peer) start es = some net)
    (hpaced : AllSteps (NetworkState.step H (lp64 o) peer) (Unforced H (lp64 o)) start es) :
    ∃ fs mail, exec (MessageNetwork.step H o peer) (fun _ => {}) fs = some mail ∧
      Ordered (machine H o) peer mail ∧ ∀ a, (mail a).process = (net a).process ∧
        (mail a).opened = (net a).conns.length ∧
        ∀ (k : ℕ) (c : Connection), (net a).conns[k]? = some c →
          c.dispatched = on k (mail a).process.received ∧ c.written = on k (mail a).posts := by
  obtain ⟨fs,mail,hfs,hmail⟩ := run_refines hrun hpaced
  refine ⟨fs,mail,hfs,run_ordered (fun _ _ => rfl) hfs,?_⟩
  intro a
  refine ⟨(hmail.abstracts a).process,(hmail.abstracts a).opened,?_⟩
  intro k c hc
  rw [(hmail.abstracts a).process]
  exact ⟨(hmail.composed a).dispatched k c hc,(hmail.abstracts a).posts k c hc⟩

set_option maxRecDepth 20000 in
theorem exchangeRun_unforced : AllSteps (NetworkState.step (fun _ => 5) (lp64 .little) pair)
    (Unforced (fun _ => 5) (lp64 .little)) start exchangeRun := by decide +kernel

theorem network_refines_pair :
    ∃ net ∈ exec (NetworkState.step (fun _ => 5) (lp64 .little) pair) start exchangeRun,
      (net true).process.ran.length = 2 ∧
      ∃ fs mail, exec (MessageNetwork.step (fun _ => 5) .little pair) (fun _ => {}) fs = some mail ∧
        Ordered (machine (fun _ => 5) .little) pair mail ∧
        ∀ a, (mail a).process = (net a).process := by
  have hrun : ∃ net ∈ exec (NetworkState.step (fun _ => 5) (lp64 .little) pair) start exchangeRun,
      (net true).process.ran.length = 2 := by decide +kernel
  obtain ⟨net,hnet,hran⟩ := hrun
  obtain ⟨fs,mail,hfs,hordered,hmail⟩ := network_refines _ _ pair _ net hnet exchangeRun_unforced
  exact ⟨net,hnet,hran,fs,mail,hfs,hordered,fun a => (hmail a).1⟩

end SindiaRpc.MessageNetwork
