import SindiaRpc.NodeHistories
import SindiaRpc.ResponseHistory

/-!
# Messages that end the process

The handlers of the reads are the only code of the read loops that can fail, and
they fail in `dispatch` only: where a handler's result does not fit into a
message, and where a response finds a promise that has its value.
-/
namespace SindiaRpc.FatalMessages
open MessageFrames DispatcherTable PromiseTables RpcChannel RpcProcess ConnectionState ReadLoop
  StreamReading ConnectionHistories ProcessWrites NodeState NodeHistories FrameBounds Routing
  PromiseKeys ResponseOrder ResponseHistory GuardedRuns

/-- The result of a request fits, and a response finds no promise or a pending
one. -/
structure Harmless (p : Process ℕ) (msg : Message) : Prop where
  request : HasType msg .request → ∀ body, msg.dataString = some body →
    (result p.callmap msg.getHash body).length ≤ 4076
  response : HasType msg .response → ∀ u, p.channel.prommap.find msg.header.id = some u →
    p.channel.prommap.states u = .pending

section Dispatch
variable {H : Bytes → ℕ} {o : ByteOrder} {p : Process ℕ} {k : ℕ} {msg : Message} {body : Bytes}

theorem request_runs_iff (hm : HasType msg .request) (hbody : msg.dataString = some body) :
    (∃ p', RpcProcess.step H o p (.receive k msg) = some p') ↔
      (result p.callmap msg.getHash body).length ≤ 4076 := by
  cases hreply : response o msg (result p.callmap msg.getHash body) with
  | some reply =>
      have hshort := hreply
      rw [response_eq_build] at hshort
      have hd : dispatch o p.callmap (some k) msg p.channel = .ok _ :=
        dispatch_answers hm hbody hreply
      exact iff_of_true ⟨_,step_receive.mpr ⟨_,hd,rfl⟩⟩ (Message.build_spec hshort).1.fits
  | none =>
      have hlong := hreply
      rw [response_eq_build,Message.build_eq_none] at hlong
      refine iff_of_false ?_ (by omega)
      intro hex
      obtain ⟨p',hp'⟩ := hex
      obtain ⟨d,hd,_⟩ := step_receive.mp hp'
      rw [dispatch_request hm (handle_eq p.callmap hbody)] at hd
      simp only [hreply] at hd
      cases hd

theorem response_runs_iff (hm : HasType msg .response) (hbody : msg.dataString = some body) :
    (∃ p', RpcProcess.step H o p (.receive k msg) = some p') ↔
      ∀ u, p.channel.prommap.find msg.header.id = some u →
        p.channel.prommap.states u = .pending := by
  constructor
  · intro hex u hu
    obtain ⟨p',hp'⟩ := hex
    obtain ⟨d,hd,_⟩ := step_receive.mp hp'
    rcases setResponse_cases (dispatch_response hm hd).1 with
      ⟨hnone,_⟩ | ⟨prom,_,hprom,_,hpending,_⟩
    · rw [hu] at hnone
      cases hnone
    · obtain rfl := Option.some.inj (hu.symm.trans hprom)
      exact hpending
  · intro hpending
    cases hfind : p.channel.prommap.find msg.header.id with
    | none => exact ⟨_,step_dropped hm hfind⟩
    | some u => exact ⟨_,step_found hm hfind hbody (hpending u hfind)⟩

theorem receive_runs_iff (hbody : msg.dataString = some body) :
    (∃ p', RpcProcess.step H o p (.receive k msg) = some p') ↔ Harmless p msg := by
  by_cases hq : HasType msg .request
  · rw [request_runs_iff hq hbody]
    constructor
    · intro hlen
      refine ⟨fun _ b hb => ?_,fun hr => absurd hr (types_apart hq (by decide))⟩
      obtain rfl := Option.some.inj (hbody.symm.trans hb)
      exact hlen
    · exact fun h => h.request hq body hbody
  · by_cases hr : HasType msg .response
    · rw [response_runs_iff hr hbody]
      exact ⟨fun h => ⟨fun hm => absurd hm hq,fun _ => h⟩,fun h => h.response hr⟩
    · refine iff_of_true ?_ ⟨fun hm => absurd hm hq,fun hm => absurd hm hr⟩
      have hok : ∃ d, dispatch o p.callmap (some k) msg p.channel = .ok d := by
        by_cases hn : HasType msg .notify
        · exact ⟨_,dispatch_notify hn (handle_eq p.callmap hbody)⟩
        · exact ⟨_,by rw [dispatch,if_neg hr,if_neg hq,if_neg hn]⟩
      obtain ⟨d,hd⟩ := hok
      exact ⟨_,step_receive.mpr ⟨d,hd,rfl⟩⟩

/-- A promise that a response finds settled was settled by a response with the
same id. -/
theorem earlier_response {conn : Option ℕ} {es : List (RpcProcess.Event ℕ)} {id : UInt32} {u : ℕ}
    (hrun : exec (RpcProcess.step H o) (init conn) es = some p)
    (hfind : p.channel.prommap.find id = some u)
    (hsettled : p.channel.prommap.states u ≠ .pending) :
    ∃ r ∈ p.received, HasType r.2 .response ∧ r.2.header.id = id := by
  cases hst : p.channel.prommap.states u with
  | pending => exact absurd hst hsettled
  | broken => exact absurd hst (run_unbroken hrun _ _ hfind)
  | value body =>
      obtain ⟨m,hown,j,msg,hmem,hm,hid,_⟩ :=
        (ConnectionIsolation.run_sourced hrun).value u body hst
      obtain ⟨c,hc,_,hkey⟩ := (run_keyed hrun).entry _ _ hfind
      have hkey' := (hown.of_call hc).2
      exact ⟨(j,msg),hmem,hm,hid.trans (hkey'.symm.trans hkey)⟩

end Dispatch

section Handlers
variable {H : Bytes → ℕ} {o : ByteOrder} {abi : Abi} {n : Node} {k i : ℕ} {c : Connection}
  {msg : Message} {data : Bytes} {reply : Option Message}

/-- `Write` takes any message that was built. -/
theorem write_built (h : msg.Coherent o data) (abi : Abi) (s : Connection) :
    ∃ t, s.write abi msg = some t := by
  simp only [Connection.write]
  split_ifs
  · have hrange : Buffer.InRange 4096 0 (msg.bufferLength abi) := by
      have hfits := h.fits
      rw [h.bufferLength abi]
      unfold Buffer.InRange
      omega
    exact ⟨_,by rw [Buffer.load_eq_some.mpr ⟨hrange,rfl⟩]; rfl⟩
  · exact ⟨_,rfl⟩

theorem onReadBody_runs (hreply : ∀ m ∈ reply, ∃ data, m.Coherent o data) (s : Connection) :
    ∃ t, s.onReadBody abi 0 reply = some t := by
  cases reply with
  | none => exact ⟨_,rfl⟩
  | some m =>
      obtain ⟨data,hm⟩ := hreply m rfl
      obtain ⟨t,ht⟩ := write_built hm abi {s with dispatched := s.dispatched ++ [s.message]}
      exact ⟨_,by simp only [Connection.onReadBody,if_true,ht,Option.map_some]; rfl⟩

/-- A handler that dispatches nothing cannot fail. -/
theorem unread_runs (hready : ∃ op ∈ c.reads[i]?, op.result ≠ none) (hin : incoming c i = none) :
    ∃ c', ConnectionState.step abi c (.runRead i none) = some c' := by
  obtain ⟨op,hop,hres⟩ := hready
  obtain ⟨error,herror⟩ := Option.ne_none_iff_exists'.mp hres
  cases hh : op.handler with
  | onReadHead => exact ⟨_,step_runRead.mpr ⟨op,error,hop,herror,Or.inl ⟨hh,rfl⟩⟩⟩
  | onReadBody =>
      have hne : error ≠ 0 := by
        intro hz
        rw [incoming_eq_some.mpr ⟨op,hop,hh,by rw [herror,hz],rfl⟩] at hin
        cases hin
      have hrun : Connection.onReadBody abi error none {c with reads := c.reads.eraseIdx i} =
          some (Connection.onError error {c with reads := c.reads.eraseIdx i}) := by
        rw [Connection.onReadBody,if_neg hne]
      exact ⟨_,step_runRead.mpr ⟨op,error,hop,herror,Or.inr ⟨hh,hrun⟩⟩⟩

theorem dispatch_runs_iff (hc : n.conns[k]? = some c) (hin : incoming c i = some msg)
    (hbody : msg.dataString = some data) :
    (∃ n', NodeState.step H abi n (.runRead k i) = some n') ↔ Harmless n.process msg := by
  rw [← receive_runs_iff (H := H) (o := abi.order) (k := k) hbody]
  constructor
  · intro hex
    obtain ⟨n',hn'⟩ := hex
    obtain ⟨p,_,hp,_⟩ := (step_runRead_dispatch hc hin).mp hn'
    exact ⟨p,hp⟩
  · intro hex
    obtain ⟨p,hp⟩ := hex
    have hreply : ∀ m ∈ (posted n.process p).head?.map Prod.snd,
        ∃ data, m.Coherent abi.order data := by
      obtain ⟨d,hd,rfl⟩ := step_receive.mp hp
      have hposted : posted n.process (n.process.deliver k msg d) = d.writes := posted_of_append rfl
      rw [hposted]
      rcases dispatch_writes hd with ⟨_,hnil⟩ | ⟨_,handled,reply,_,hreply,rfl⟩
      · rw [hnil]
        nofun
      · intro m hm
        cases hm
        rw [response_eq_build] at hreply
        exact ⟨_,(Message.build_spec hreply).1⟩
    obtain ⟨op,hop,hh,hres,_⟩ := incoming_eq_some.mp hin
    have hbodyruns : ∃ c', Connection.onReadBody abi 0 _ {c with reads := c.reads.eraseIdx i} =
        some c' := onReadBody_runs hreply _
    obtain ⟨c',hc'⟩ := hbodyruns
    refine ⟨_,(step_runRead_dispatch hc hin).mpr ⟨p,c',hp,?_,rfl⟩⟩
    exact step_runRead.mpr ⟨op,0,hop,hres,Or.inr ⟨hh,hc'⟩⟩

end Handlers

/-- In every state of a node the handler of a completed read runs to its end
exactly if the message it dispatches, if any, is harmless; a response is so
unless one with its id was dispatched before. -/
theorem handler_runs_iff (H : Bytes → ℕ) (o : ByteOrder) (es : List NodeState.Event) (n : Node)
    (k i : ℕ) (c : Connection)
    (hrun : exec (NodeState.step H (lp64 o)) Node.empty es = some n) (hc : n.conns[k]? = some c)
    (hready : ∃ op ∈ c.reads[i]?, op.result ≠ none) :
    ((∃ n', NodeState.step H (lp64 o) n (.runRead k i) = some n') ↔
      ∀ msg, incoming c i = some msg → Harmless n.process msg) ∧
    ∀ msg, HasType msg .response →
      (∀ r ∈ n.process.received, HasType r.2 .response → r.2.header.id ≠ msg.header.id) →
        Harmless n.process msg := by
  have hcomposed := node_composed hrun
  constructor
  · cases hin : incoming c i with
    | none =>
        refine iff_of_true ?_ nofun
        have hruns : ∃ c', ConnectionState.step (lp64 o) c (.runRead i none) = some c' :=
          unread_runs hready hin
        obtain ⟨c',hc'⟩ := hruns
        exact ⟨_,(step_runRead_unread hc hin).mpr ⟨c',hc',rfl⟩⟩
    | some msg =>
        have hdelivered := (incoming_received (hcomposed.consumed hc).inv hin).1
        rw [dispatch_runs_iff hc hin (dataString_wireImage hdelivered)]
        constructor
        · intro h m hm
          cases hm
          exact h
        · exact fun h => h msg rfl
  · intro msg hm hfirst
    refine ⟨fun hq => absurd hq (types_apart hm (by decide)),fun _ u hu => ?_⟩
    by_contra hsettled
    obtain ⟨pes,hpes⟩ := hcomposed.process
    obtain ⟨r,hr,htype,hid⟩ := earlier_response hpes hu hsettled
    exact hfirst r hr htype hid

/-- A response to nothing. -/
def strayFrame (id : UInt32) : Bytes :=
  ((Message.build .little [7] 2 id 5 0).getD .empty).frame (lp64 .little)

/-- The bytes of a request have been read on one connection; on the other one
response was dispatched, and another has been read. -/
def pendingRun : List NodeState.Event :=
  [.thread (.reghandler [1] (some id)),.accept "a",.accept "b"] ++
    (readFrame 0 (shortRequest.frame (lp64 .little))).take 4 ++ readFrame 1 (strayFrame 9) ++
    (readFrame 1 (strayFrame 8)).take 4

theorem handler_runs_iff_pending :
    ∃ n ∈ exec (NodeState.step (fun _ => 5) (lp64 .little)) Node.empty pendingRun,
      ∃ c ∈ n.conns[0]?, ∃ d ∈ n.conns[1]?, incoming c 0 ≠ none ∧
        ((∃ n', NodeState.step (fun _ => 5) (lp64 .little) n (.runRead 0 0) = some n') ↔
          ∀ msg, incoming c 0 = some msg → Harmless n.process msg) ∧
        ∃ msg ∈ incoming d 0, HasType msg .response ∧ n.process.received.length = 1 ∧
          Harmless n.process msg := by
  have hrun : ∃ n ∈ exec (NodeState.step (fun _ => 5) (lp64 .little)) Node.empty pendingRun,
      ∃ c ∈ n.conns[0]?, ∃ d ∈ n.conns[1]?, incoming c 0 ≠ none ∧
        (∃ op ∈ c.reads[0]?, op.result ≠ none) ∧
        ∃ msg ∈ incoming d 0, HasType msg .response ∧ n.process.received.length = 1 ∧
          ∀ r ∈ n.process.received, HasType r.2 .response → r.2.header.id ≠ msg.header.id := by
    decide
  obtain ⟨n,hn,c,hc,d,hd,hin,hready,msg,hmsg,htype,hone,hfirst⟩ := hrun
  have hboth := handler_runs_iff _ _ _ n 0 0 c hn hc hready
  exact ⟨n,hn,c,hc,d,hd,hin,hboth.1,msg,hmsg,htype,hone,hboth.2 msg htype hfirst⟩

end SindiaRpc.FatalMessages
