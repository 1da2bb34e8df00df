import SindiaRpc.NodeState
import SindiaRpc.Routing

/-!
# What a process answers on its connections

Seen from one of its parts, a run of a node is a run of that part: the process
takes the steps of its threads and of its dispatches, and each connection those
of its own reads and writes. The histories of the two agree, so that what holds
of either side holds of the node: the responses written on a connection answer
the requests in the bytes received on it.
-/
namespace SindiaRpc.NodeHistories
open MessageFrames DispatcherTable PromiseTables RpcChannel RpcProcess ConnectionState ReadLoop
  StreamReading StreamContents ConnectionHistories ProcessWrites NodeState FrameBounds Routing
  GuardedRuns ListUpdates
open ClientState (hello)

/-- The parts of a node and how their histories fit together. -/
structure Composed (H : Bytes → ℕ) (abi : Abi) (n : Node) : Prop where
  process : ∃ es, exec (RpcProcess.step H abi.order) (init none) es = some n.process
  conns : ∀ (k : ℕ) (c : Connection), n.conns[k]? = some c → ∃ addr es,
    exec (ConnectionState.step abi) (started .empty true addr) es = some c
  dispatched : ∀ (k : ℕ) (c : Connection), n.conns[k]? = some c →
    c.dispatched = on k n.process.received
  written : ∀ (k : ℕ) (c : Connection), n.conns[k]? = some c → ∃ greeting : Option Message,
    (∀ m ∈ greeting, hello H abi.order = some m) ∧
      c.written = greeting.toList ++ on k n.process.writes
  unused : ∀ k, n.conns.length ≤ k →
    on k n.process.received = [] ∧ on k n.process.writes = []

section Steps
variable {H : Bytes → ℕ} {abi : Abi} {n n' : Node} {e : NodeState.Event} {k j : ℕ} {c c' : Connection}

theorem on_tagged (k : ℕ) (m : Option Message) :
    on k (m.toList.map fun m => (k,m)) = m.toList := by
  cases m with
  | none => rfl
  | some m => exact on_same k m

theorem on_tagged_other (h : j ≠ k) (m : Option Message) :
    on k (m.toList.map fun m => (j,m)) = [] := by
  cases m with
  | none => rfl
  | some m => exact on_other h m

/-- A connection that has just been opened. -/
theorem fresh_connection {addr : String} (h : e = .accept addr ∧ c = started .empty true addr ∨
      e = .connect addr ∧ greeted H abi addr = some c) :
    (∃ es, exec (ConnectionState.step abi) (started .empty true addr) es = some c) ∧
      c.dispatched = [] ∧ ∃ greeting : Option Message,
        (∀ m ∈ greeting, hello H abi.order = some m) ∧ c.written = greeting.toList := by
  rcases h with ⟨_,rfl⟩ | ⟨_,h⟩
  · exact ⟨⟨[],rfl⟩,rfl,none,nofun,rfl⟩
  · simp only [greeted,Option.bind_eq_bind,Option.bind_eq_some_iff] at h
    obtain ⟨msg,hmsg,hwrite⟩ := h
    have hafter := histories_write hwrite
    refine ⟨⟨[.callWrite msg],?_⟩,congrArg Histories.dispatched hafter,some msg,?_,
      congrArg Histories.written hafter⟩
    · exact (exec_cons_eq_some _).mpr ⟨c,hwrite,rfl⟩
    · intro m hm
      cases hm
      exact hmsg

theorem Composed.opened (h : Composed H abi n) {addr : String}
    (hfresh : e = .accept addr ∧ c = started .empty true addr ∨
      e = .connect addr ∧ greeted H abi addr = some c)
    (hprocess : n'.process = n.process) (hconns : n'.conns = n.conns ++ [c]) :
    Composed H abi n' := by
  obtain ⟨hrun,hdispatched,greeting,hgreeting,hwritten⟩ := fresh_connection hfresh
  obtain ⟨hreceived,hwrites⟩ := h.unused n.conns.length le_rfl
  constructor
  · rw [hprocess]
    exact h.process
  · intro k d hd
    rw [hconns] at hd
    rcases getElem?_concat_cases hd with hd | ⟨_,rfl⟩
    · exact h.conns k d hd
    · exact ⟨addr,hrun⟩
  · intro k d hd
    rw [hconns] at hd
    rw [hprocess]
    rcases getElem?_concat_cases hd with hd | ⟨rfl,rfl⟩
    · exact h.dispatched k d hd
    · rw [hdispatched,hreceived]
  · intro k d hd
    rw [hconns] at hd
    rw [hprocess]
    rcases getElem?_concat_cases hd with hd | ⟨rfl,rfl⟩
    · exact h.written k d hd
    · exact ⟨greeting,hgreeting,by rw [hwritten,hwrites,List.append_nil]⟩
  · intro k hk
    rw [hconns,List.length_append,List.length_singleton] at hk
    rw [hprocess]
    exact h.unused k (by omega)

theorem Composed.moved (h : Composed H abi n) {ce : ConnectionState.Event}
    (hc : n.conns[k]? = some c) (hmoves : ConnectionState.step abi c ce = some c')
    (hprocess : ∃ es, exec (RpcProcess.step H abi.order) (init none) es = some n'.process)
    (hreceived : n'.process.received =
      n.process.received ++ (dispatching c ce).toList.map fun m => (k,m))
    (hwrites : n'.process.writes = n.process.writes ++ (writing c ce).toList.map fun m => (k,m))
    (hconns : n'.conns = n.conns.set k c') : Composed H abi n' := by
  have hafter := step_histories hmoves
  have hlt : k < n.conns.length := (List.getElem?_eq_some_iff.mp hc).choose
  refine ⟨hprocess,?_,?_,?_,?_⟩
  · intro j d hd
    rw [hconns] at hd
    rcases getElem?_set_cases hd with ⟨rfl,rfl⟩ | ⟨_,hd⟩
    · obtain ⟨addr,es,hes⟩ := h.conns j c hc
      exact ⟨addr,es ++ [ce],exec_concat _ hes hmoves⟩
    · exact h.conns j d hd
  · intro j d hd
    rw [hconns] at hd
    rw [hreceived,on_append]
    rcases getElem?_set_cases hd with ⟨rfl,rfl⟩ | ⟨hj,hd⟩
    · rw [on_tagged,← h.dispatched j c hc]
      exact congrArg Histories.dispatched hafter
    · rw [on_tagged_other (Ne.symm hj),List.append_nil]
      exact h.dispatched j d hd
  · intro j d hd
    rw [hconns] at hd
    rw [hwrites,on_append]
    rcases getElem?_set_cases hd with ⟨rfl,rfl⟩ | ⟨hj,hd⟩
    · obtain ⟨greeting,hgreeting,hwritten⟩ := h.written j c hc
      refine ⟨greeting,hgreeting,?_⟩
      rw [on_tagged,← List.append_assoc,← hwritten]
      exact congrArg Histories.written hafter
    · rw [on_tagged_other (Ne.symm hj),List.append_nil]
      exact h.written j d hd
  · intro j hj
    rw [hconns,List.length_set] at hj
    have hne : k ≠ j := by omega
    rw [hreceived,hwrites,on_append,on_append,on_tagged_other hne,on_tagged_other hne,
      List.append_nil,List.append_nil]
    exact h.unused j hj

theorem Composed.step (h : Composed H abi n) (hs : NodeState.step H abi n e = some n') :
    Composed H abi n' := by
  obtain ⟨es,hes⟩ := h.process
  cases step_change hs with
  | process pe event steps received writes conns =>
      refine ⟨⟨es ++ [pe],exec_concat _ hes steps⟩,?_,?_,?_,?_⟩
      · rw [conns]
        exact h.conns
      · rw [conns,received]
        exact h.dispatched
      · rw [conns,writes]
        exact h.written
      · rw [conns,received,writes]
        exact h.unused
  | opened addr c fresh process conns => exact h.opened fresh process conns
  | moved k c c' ce mem event moves process received writes conns =>
      refine h.moved mem moves ?_ received writes conns
      rcases process with heq | ⟨pe,_,steps⟩
      · rw [heq]
        exact ⟨es,hes⟩
      · exact ⟨es ++ [pe],exec_concat _ hes steps⟩

end Steps

/-- In every state of a node its process and its connections are in states of
their own runs, and the histories agree. -/
theorem node_composed {H : Bytes → ℕ} {abi : Abi} {es : List NodeState.Event} {n : Node}
    (hrun : exec (NodeState.step H abi) Node.empty es = some n) : Composed H abi n := by
  apply exec_preserves (NodeState.step H abi) (P := Composed H abi)
    (fun n e n' hn hs => hn.step hs) ?_ hrun
  refine ⟨⟨[],rfl⟩,?_,?_,?_,fun _ _ => ⟨rfl,rfl⟩⟩
  · intro k c hc
    cases hc
  · intro k c hc
    cases hc
  · intro k c hc
    cases hc

/-! ### From bytes to replies -/

section Streams
variable {H : Bytes → ℕ} {o : ByteOrder} {n : Node} {k : ℕ} {c : Connection}

theorem hello_type {m : Message} (h : hello H o = some m) : HasType m .notify :=
  built_type (x := ⟨_,_,_,_,_⟩) h rfl

/-- The greeting is neither a request nor a response. -/
theorem Composed.written_type (h : Composed H (lp64 o) n) (hc : n.conns[k]? = some c)
    {type : MsgType} (hne : MsgType.notify ≠ type) :
    ofType type c.written = ofType type (on k n.process.writes) := by
  obtain ⟨greeting,hgreeting,hwritten⟩ := h.written k c hc
  rw [hwritten,ofType_append]
  cases greeting with
  | none => rfl
  | some m =>
      have hm := hello_type (hgreeting m rfl)
      rw [Option.toList_some,ofType_other (types_apart hm hne),List.nil_append]

/-- Everything written on a connection was built. -/
theorem Composed.built (h : Composed H (lp64 o) n) (hc : n.conns[k]? = some c) :
    ∀ m ∈ c.written, Built o m := by
  obtain ⟨es,hes⟩ := h.process
  obtain ⟨greeting,hgreeting,hwritten⟩ := h.written k c hc
  intro m hm
  rw [hwritten] at hm
  rcases List.mem_append.mp hm with hm | hm
  · exact ⟨⟨_,_,_,_,_⟩,hgreeting m (Option.mem_toList.mp hm)⟩
  · obtain ⟨w,hw,rfl⟩ := List.mem_map.mp hm
    exact run_built hes w (List.mem_of_mem_filter hw)

theorem Composed.consumed {abi : Abi} (h : Composed H abi n) (hc : n.conns[k]? = some c) :
    Consumed abi c := by
  obtain ⟨addr,es,hes⟩ := h.conns k c hc
  exact run_consumed hes

theorem on_lookups (k : ℕ) (ls : List (ℕ × Message × Option (Bytes → Bytes))) :
    on k (ls.map fun r => (r.1,r.2.1)) = (on k ls).map Prod.fst := by
  rw [on,on,List.filter_map,List.map_map,List.map_map]
  rfl

/-- What was dispatched from a connection, with what was bound at that time. -/
theorem Composed.looked {abi : Abi} (h : Composed H abi n) (hc : n.conns[k]? = some c) :
    c.dispatched = (on k n.process.lookups).map Prod.fst := by
  obtain ⟨es,hes⟩ := h.process
  rw [h.dispatched k c hc,(run_lookups hes).2,on_lookups]

theorem Composed.replied (h : Composed H (lp64 o) n) (hc : n.conns[k]? = some c) :
    List.Forall₂ (Answered n.process) (asked (on k n.process.lookups))
      (ofType .response c.written) := by
  obtain ⟨es,hes⟩ := h.process
  rw [h.written_type hc (by decide)]
  exact run_replied hes k

/-- Frames at the front of a stream are the first that the reference reader cuts
off. -/
theorem first_frames {ds : List Message} {stream : Bytes}
    (hd : ∀ d ∈ ds, Delivered (lp64 o) d) (h : images ds <+: stream) :
    ds.map Message.wireImage <+: ((framing (lp64 o)).split stream).1 := by
  obtain ⟨rest,rfl⟩ := h
  rw [images,Framing.split_flatten _ (isFrame_images hd)]
  exact List.prefix_append _ _

/-- Whatever has happened on a connection, it was read and answered in order. -/
theorem Composed.streams (h : Composed H (lp64 o) n) (hc : n.conns[k]? = some c) :
    c.dispatched.map Message.wireImage <+: ((framing (lp64 o)).split c.received).1 ∧
      (∀ m ∈ c.dispatched, WireMessage o m) ∧
      c.dispatched = (on k n.process.lookups).map Prod.fst ∧
      List.Forall₂ (Answered n.process) (asked (on k n.process.lookups))
        (ofType .response c.written) := by
  have hconsumed := h.consumed hc
  have hdelivered : ∀ m ∈ c.dispatched, Delivered (lp64 o) m := hconsumed.inv.delivered
  exact ⟨first_frames hdelivered hconsumed.front,fun m hm => wireMessage (hdelivered m hm),
    h.looked hc,h.replied hc⟩

end Streams

/-- On every connection of a process, whatever its threads and its other
connections do, the messages dispatched are the first frames of the bytes
received, and the responses written answer the requests among them, one by one
and in order. -/
theorem stream_answered (H : Bytes → ℕ) (o : ByteOrder) (es : List NodeState.Event) (n : Node)
    (k : ℕ) (c : Connection) (hrun : exec (NodeState.step H (lp64 o)) Node.empty es = some n)
    (hc : n.conns[k]? = some c) :
    c.dispatched.map Message.wireImage <+: ((framing (lp64 o)).split c.received).1 ∧
      (∀ m ∈ c.dispatched, WireMessage o m) ∧
      c.dispatched = (on k n.process.lookups).map Prod.fst ∧
      List.Forall₂ (Answered n.process) (asked (on k n.process.lookups))
        (ofType .response c.written) :=
  (node_composed hrun).streams hc

/-- A frame of a request to read: its bytes arrive and its two reads run. -/
def readFrame (k : ℕ) (bytes : Bytes) : List NodeState.Event :=
  [.io k (.receive bytes),.io k (.readReady 0),.runRead k 0,.io k (.readReady 0),.runRead k 0]

/-- A server answers requests on two connections. -/
def servingRun : List NodeState.Event :=
  [.thread (.reghandler [1] (some id)),.accept "a",.accept "b"] ++
    readFrame 1 (shortRequest.frame (lp64 .little)) ++
    readFrame 0 (shortRequest.frame (lp64 .little))

theorem stream_answered_serving :
    ∃ n ∈ exec (NodeState.step (fun _ => 5) (lp64 .little)) Node.empty servingRun,
      ∃ c ∈ n.conns[1]?, c.dispatched.length = 1 ∧
        (c.dispatched.map Message.wireImage <+: ((framing (lp64 .little)).split c.received).1 ∧
          (∀ m ∈ c.dispatched, WireMessage .little m) ∧
          c.dispatched = (on 1 n.process.lookups).map Prod.fst ∧
          List.Forall₂ (Answered n.process) (asked (on 1 n.process.lookups))
            (ofType .response c.written)) := by
  have hrun : ∃ n ∈ exec (NodeState.step (fun _ => 5) (lp64 .little)) Node.empty servingRun,
      ∃ c ∈ n.conns[1]?, c.dispatched.length = 1 := by decide
  obtain ⟨n,hn,c,hc,hlen⟩ := hrun
  exact ⟨n,hn,c,hc,hlen,stream_answered _ _ _ n 1 c hn hc⟩

end SindiaRpc.NodeHistories
