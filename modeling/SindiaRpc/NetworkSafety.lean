import SindiaRpc.NetworkDelivery
import SindiaRpc.FatalMessages

/-!
# Calls across a network

A process whose connections all lead to processes of the network, with both ends
of each written to at the right time, gets one response for each of its requests
at most. Then no response makes a handler throw, and a call that keeps its id to
itself returns what the handler of the process at the other end has computed
from its argument.
-/
namespace SindiaRpc.NetworkSafety
open MessageFrames DispatcherTable RpcChannel RpcProcess CallCorrelation CallProgress
  ConnectionState ReadLoop StreamReading StreamContents ConnectionHistories ProcessWrites
  NodeState NodeHistories NetworkState NetworkDelivery FatalMessages GuardedRuns

/-- In a run to `net` every connection of `a` leads to the other end of one stream
pair, and whatever is written at its ends finds nothing unsent there. -/
def Wired {ι : Type*} [DecidableEq ι] (H : Bytes → ℕ) (o : ByteOrder) (peer : Peers ι)
    (es : List (ι × NodeState.Event)) (net : ι → Node) (a : ι) : Prop :=
  ∀ k < (net a).conns.length, ∃ l, peer a k = some l ∧ peer l.1 l.2 = some (a,k) ∧
    AllSteps (NetworkState.step H (lp64 o) peer) (PacedAt H (lp64 o) (a,k)) start es ∧
    AllSteps (NetworkState.step H (lp64 o) peer) (PacedAt H (lp64 o) l) start es

/-- `reply` answers a request with these contents that was dispatched from `k`. -/
def Answers (s : Process ℕ) (k : ℕ) (request reply : Message) : Prop :=
  ∃ l, (k,l) ∈ s.lookups ∧ content l.1 = content request ∧ Answered s l reply

section Answers
variable {o : ByteOrder} {s : Process ℕ} {c d : Connection} {m request reply : Message} {k : ℕ}

theorem Answers.id (h : Answers s k request reply) : reply.header.id = request.header.id := by
  obtain ⟨l,_,hcontent,hanswered⟩ := h
  rw [hanswered.id,id_of_content hcontent]

theorem Answers.hash (h : Answers s k request reply) :
    reply.header.hash = request.header.hash := by
  obtain ⟨l,_,hcontent,hanswered⟩ := h
  rw [hanswered.hash,hash_of_content hcontent]

/-- What has been read was written. -/
theorem Reads.source (h : Reads o d c) (hm : m ∈ c.dispatched) :
    ∃ m' ∈ d.written, content m' = content m :=
  List.mem_map.mp (h.dispatched.subset (List.mem_map.mpr ⟨m,hm,rfl⟩))

/-- A response that is read is one that answers a request that was written. -/
theorem answer_source (hin : Reads o d c) (hout : Reads o c d)
    (hlooked : d.dispatched = (on k s.lookups).map Prod.fst)
    (hreplied : List.Forall₂ (Answered s) (asked (on k s.lookups)) (ofType .response d.written))
    (hm : m ∈ c.dispatched) (htype : HasType m .response) :
    ∃ reply ∈ ofType .response d.written, content reply = content m ∧
      ∃ request ∈ ofType .request c.written, Answers s k request reply := by
  obtain ⟨reply,hreply,hcontent⟩ := Reads.source hin hm
  have hmem : reply ∈ ofType .response d.written :=
    mem_ofType.mpr ⟨hreply,(type_of_content hcontent).mpr htype⟩
  obtain ⟨l,hl,hanswered⟩ := MatchedLists.exists_left hreplied hmem
  obtain ⟨hlook,hltype⟩ := mem_asked.mp hl
  have hdispatched : l.1 ∈ d.dispatched := by
    rw [hlooked]
    exact List.mem_map_of_mem hlook
  obtain ⟨request,hrequest,hcontent'⟩ := Reads.source hout hdispatched
  exact ⟨reply,hmem,hcontent,request,
    mem_ofType.mpr ⟨hrequest,(type_of_content hcontent').mpr hltype⟩,
    l,mem_on.mp hlook,hcontent'.symm,hanswered⟩

end Answers

/-- Whatever a process has received comes from a process of the network that reads
what it writes. -/
def BothWays {ι : Type*} (o : ByteOrder) (peer : Peers ι) (net : ι → Node) (a : ι) : Prop :=
  ∀ (k : ℕ) (c : Connection), (net a).conns[k]? = some c → c.received ≠ [] → ∃ l d,
    peer a k = some l ∧ (net l.1).conns[l.2]? = some d ∧ Reads o d c ∧ Reads o c d

section Runs
variable {ι : Type*} {H : Bytes → ℕ} {o : ByteOrder} {peer : Peers ι} {a : ι} {net : ι → Node}
  {es : List (ι × NodeState.Event)} {k i : ℕ} {c : Connection} {m : Message}

theorem Wired.bothWays [DecidableEq ι] (h : Wired H o peer es net a)
    (hrun : exec (NetworkState.step H (lp64 o) peer) start es = some net) :
    BothWays o peer net a := by
  intro k c hc hne
  have hlt : k < (net a).conns.length := (List.getElem?_eq_some_iff.mp hc).choose
  obtain ⟨l,hpeer,hback,hpacedA,hpacedB⟩ := h k hlt
  obtain ⟨d,hd⟩ := far_end (run_linked hrun) hpeer hc hne
  exact ⟨l,d,hpeer,hd,run_reads hrun hpeer hc hd hpacedB,run_reads hrun hback hd hc hpacedA⟩

/-- A response that a process has dispatched was written at the other end, in answer
to a request that the process has written on the same connection. -/
theorem BothWays.answers (h : BothWays o peer net a) (hcomposed : ∀ b, Composed H (lp64 o) (net b))
    (hm : (k,m) ∈ (net a).process.received) (htype : HasType m .response) :
    ∃ l reply request, peer a k = some l ∧ (l.2,reply) ∈ (net l.1).process.writes ∧
      HasType reply .response ∧ content reply = content m ∧ (k,request) ∈ (net a).process.writes ∧
      HasType request .request ∧ Answers (net l.1).process l.2 request reply := by
  have hon : m ∈ on k (net a).process.received := mem_on.mpr hm
  cases hc : (net a).conns[k]? with
  | none =>
      rw [((hcomposed a).unused k (List.getElem?_eq_none_iff.mp hc)).1] at hon
      cases hon
  | some c =>
      rw [← (hcomposed a).dispatched k c hc] at hon
      have hconsumed := (hcomposed a).consumed hc
      have hne := ne_nil_of_front hconsumed.inv.delivered hconsumed.front hon
      obtain ⟨l,d,hpeer,hd,hin,hout⟩ := h k c hc hne
      obtain ⟨reply,hreply,hcontent,request,hrequest,hanswers⟩ :=
        answer_source hin hout ((hcomposed l.1).looked hd) ((hcomposed l.1).replied hd) hon htype
      rw [(hcomposed l.1).written_type hd (by decide)] at hreply
      rw [(hcomposed a).written_type hc (by decide)] at hrequest
      obtain ⟨hreplied,hreplytype⟩ := mem_ofType.mp hreply
      obtain ⟨hwritten,hrequesttype⟩ := mem_ofType.mp hrequest
      exact ⟨l,reply,request,hpeer,mem_on.mp hreplied,hreplytype,hcontent,mem_on.mp hwritten,
        hrequesttype,hanswers⟩

theorem run_composed [DecidableEq ι]
    (hrun : exec (NetworkState.step H (lp64 o) peer) start es = some net) (b : ι) :
    Composed H (lp64 o) (net b) :=
  node_composed (run_node hrun b)

end Runs

/-! ### Responses and handlers -/

section Requests
variable {H : Bytes → ℕ} {o : ByteOrder} {p : Process ℕ} {es : List (RpcProcess.Event ℕ)}
  {k j : ℕ} {m m' : Message}

/-- An id is that of one request on one connection. -/
theorem same_request (hrun : exec (RpcProcess.step H o) (init none) es = some p)
    (hlen : p.calls.length < 2 ^ 32) (hm : (k,m) ∈ p.writes) (hm' : (j,m') ∈ p.writes)
    (htype : HasType m .request) (htype' : HasType m' .request)
    (hid : m.header.id = m'.header.id) : k = j := by
  have hnodup := ids_distinct hrun hlen
  rw [ofType,List.filter_map,List.map_map] at hnodup
  have hmem : (k,m) ∈ p.writes.filter ((fun m => decide (HasType m .request)) ∘ Prod.snd) :=
    List.mem_filter.mpr ⟨hm,by simpa using htype⟩
  have hmem' : (j,m') ∈ p.writes.filter ((fun m => decide (HasType m .request)) ∘ Prod.snd) :=
    List.mem_filter.mpr ⟨hm',by simpa using htype'⟩
  exact congrArg Prod.fst (List.inj_on_of_nodup_map hnodup hmem hmem' hid)

/-- On one connection they differ as well. -/
theorem ids_on (hrun : exec (RpcProcess.step H o) (init none) es = some p)
    (hlen : p.calls.length < 2 ^ 32) (k : ℕ) :
    ((ofType .request (on k p.writes)).map fun m => m.header.id).Nodup := by
  apply List.Nodup.sublist ?_ (ids_distinct hrun hlen)
  exact (((List.filter_sublist).map _).filter _).map _

end Requests

/-- With its connections wired, and below `2 ^ 32` calls, no response that a
process reads makes the handler of the read throw. -/
theorem responses_never_throw {ι : Type*} [DecidableEq ι] (H : Bytes → ℕ) (o : ByteOrder)
    (peer : Peers ι) (es : List (ι × NodeState.Event)) (net : ι → Node) (a : ι) (k i : ℕ)
    (c : Connection) (msg : Message)
    (hrun : exec (NetworkState.step H (lp64 o) peer) start es = some net)
    (hwired : Wired H o peer es net a) (hlen : (net a).process.calls.length < 2 ^ 32)
    (hc : (net a).conns[k]? = some c) (hin : incoming c i = some msg)
    (htype : HasType msg .response) :
    ∃ net', NetworkState.step H (lp64 o) peer net (a,.runRead k i) = some net' := by
  have hcomposed := node_composed (run_node hrun a)
  obtain ⟨pes,hpes⟩ := hcomposed.process
  obtain ⟨hdelivered,hfront⟩ := incoming_received (hcomposed.consumed hc).inv hin
  have hall : ∀ m ∈ c.dispatched ++ [msg], Delivered (lp64 o) m :=
    List.forall_mem_append.mpr
      ⟨(hcomposed.consumed hc).inv.delivered,List.forall_mem_singleton.mpr hdelivered⟩
  have hne := ne_nil_of_front hall hfront (List.mem_append_right _ (List.mem_singleton_self msg))
  have hbothWays := hwired.bothWays hrun
  obtain ⟨l,d,_,hd,hreads,hback⟩ := hbothWays k c hc hne
  -- with this response there are no more than there are requests
  have hfar := node_composed (run_node hrun l.1)
  have hids := response_ids (hreads.incoming hin) (hfar.looked hd) (hfar.replied hd) hback
  rw [hcomposed.written_type hc (by decide),ofType_append,ofType_same htype,List.map_append] at hids
  have hnodup := List.Nodup.sublist hids.sublist (ids_on hpes hlen k)
  have hrequest : ∃ m ∈ ofType .request (on k (net a).process.writes),
      m.header.id = msg.header.id := List.mem_map.mp (hids.subset (by simp))
  obtain ⟨m,hm,hmid⟩ := hrequest
  obtain ⟨hwritten,hmtype⟩ := mem_ofType.mp hm
  have hharmless : Harmless (net a).process msg := by
    refine ⟨fun hq => absurd hq (types_apart htype (by decide)),fun _ u hu => ?_⟩
    by_contra hsettled
    obtain ⟨⟨j,m'⟩,hm',htype',hid⟩ := earlier_response hpes hu hsettled
    obtain ⟨_,reply,request,_,_,_,hcontent,hrequest,hreqtype,hanswered⟩ :=
      hbothWays.answers (run_composed hrun) hm' htype'
    have hids : request.header.id = m'.header.id :=
      hanswered.id.symm.trans (id_of_content hcontent)
    have hj : j = k := same_request hpes hlen hrequest (mem_on.mp hwritten) hreqtype hmtype
      (hids.trans (hid.trans hmid.symm))
    subst hj
    rw [hcomposed.dispatched _ _ hc] at hnodup
    apply List.disjoint_of_nodup_append hnodup (a := msg.header.id)
    · exact List.mem_map.mpr ⟨m',mem_ofType.mpr ⟨mem_on.mpr hm',htype'⟩,hid⟩
    · simp
  obtain ⟨n',hn'⟩ := (dispatch_runs_iff (H := H) hc hin (dataString_wireImage hdelivered)).mpr
    hharmless
  exact ⟨_,Interleavings.step_eq_some.mpr ⟨trivial,n',hn',rfl⟩⟩

set_option maxRecDepth 20000 in
theorem arrivedRun_paced : ∀ b, AllSteps (NetworkState.step (fun _ => 5) (lp64 .little) pair)
    (PacedAt (fun _ => 5) (lp64 .little) (b,0)) start arrivedRun := by decide +kernel

/-- One connection on either side. -/
theorem wired_pair {es : List (Bool × NodeState.Event)} {net : Bool → Node} {a : Bool}
    (hpaced : ∀ b, AllSteps (NetworkState.step (fun _ => 5) (lp64 .little) pair)
      (PacedAt (fun _ => 5) (lp64 .little) (b,0)) start es) (hlen : (net a).conns.length = 1) :
    Wired (fun _ => 5) .little pair es net a := by
  intro k hk
  obtain rfl : k = 0 := by omega
  refine ⟨(!a,0),rfl,?_,hpaced a,hpaced (!a)⟩
  cases a <;> rfl

theorem responses_never_throw_pair :
    ∃ net ∈ exec (NetworkState.step (fun _ => 5) (lp64 .little) pair) start arrivedRun,
      ∃ net', NetworkState.step (fun _ => 5) (lp64 .little) pair net (false,.runRead 0 0) =
        some net' := by
  have hrun : ∃ net ∈ exec (NetworkState.step (fun _ => 5) (lp64 .little) pair) start arrivedRun,
      (net false).conns.length = 1 ∧ (net false).process.calls.length < 2 ^ 32 ∧
        ∃ c ∈ (net false).conns[0]?, ∃ msg ∈ incoming c 0, HasType msg .response := by
    decide +kernel
  obtain ⟨net,hnet,hone,hlen,c,hc,msg,hin,htype⟩ := hrun
  exact ⟨net,hnet,responses_never_throw _ _ pair _ net false 0 0 c msg hnet
    (wired_pair arrivedRun_paced hone) hlen hc hin htype⟩

/-! ### Calls -/

/-- No call of the node increments the counter while another is between its own
increment and its second reading. -/
def Calm (n : Node) : NodeState.Event → Prop
  | .thread e => CallCorrelation.Calm n.process e
  | .accept _ | .connect _ | .io _ _ | .runRead _ _ => True

instance (n : Node) : ∀ e, Decidable (Calm n e)
  | .thread e => inferInstanceAs (Decidable (CallCorrelation.Calm n.process e))
  | .accept _ | .connect _ | .io _ _ | .runRead _ _ => inferInstanceAs (Decidable True)

/-- What a process has made of a request for `name` that it dispatched from `k`: the
result of the handler that was bound to it then, or nothing if none was. -/
def Computed (H : Bytes → ℕ) (s : Process ℕ) (k : ℕ) (request : Message)
    (name req res : Bytes) : Prop :=
  ∃ l, (k,l) ∈ s.lookups ∧ content l.1 = content request ∧
    Outcome s (hashKey H name) (some req) res l.2

section Calls
variable {H : Bytes → ℕ} {abi : Abi} {o : ByteOrder} {n : Node} {es : List NodeState.Event}
  {es' : List (RpcProcess.Event ℕ)} {p : Process ℕ} {t : ℕ} {c : Invocation} {m request : Message}

theorem node_correlation (hrun : exec (NodeState.step H abi) Node.empty es = some n)
    (hcalm : AllSteps (NodeState.step H abi) Calm Node.empty es)
    (hlen : n.process.calls.length < 2 ^ 32) : Correlation n.process := by
  have hall : AllStates (NodeState.step H abi)
      (fun n => n.process.calls.length < 2 ^ 32 → Correlation n.process) Node.empty es := by
    apply allStates_of_allSteps ?_ (fun _ => Correlation.init none) hcalm
    intro n e n' hn hcalm hs hlen
    have hprocess : ∀ pe, CallCorrelation.Calm n.process pe →
        RpcProcess.step H abi.order n.process pe = some n'.process → Correlation n'.process := by
      intro pe hpe hstep
      have hle := calls_length_step hstep
      exact (hn (by omega)).step hlen hpe hstep
    cases NodeState.step_change hs with
    | process pe event steps received writes conns =>
        subst event
        exact hprocess pe hcalm steps
    | opened addr c fresh process conns =>
        rw [process] at hlen ⊢
        exact hn hlen
    | moved k c c' ce mem event moves process received writes conns =>
        rcases process with heq | ⟨pe,rfl | ⟨msg,rfl⟩,steps⟩
        · rw [heq] at hlen ⊢
          exact hn hlen
        · exact hprocess pe hcalm steps
        · exact hprocess (.receive k msg) trivial steps
  exact hall.last hrun hlen

/-- A call that returned `RPCOK` has the body of a response with its own id. -/
theorem response_of_return (hrun : exec (RpcProcess.step H o) (init none) es' = some p)
    (hcor : Correlation p) (hc : p.calls[t]? = some c) (hpc : c.pc = .returned .rpcOk) :
    ∃ k msg, (k,msg) ∈ p.received ∧ HasType msg .response ∧
      msg.header.id = c.msg.header.id ∧ msg.dataString = some c.res := by
  have hsourced := ConnectionIsolation.run_sourced hrun
  have hvalue := hsourced.result t c hc (Or.inr hpc)
  obtain ⟨id,hown,k,msg,hmem,htype,hid,hbody⟩ := hsourced.value t c.res hvalue
  have hkey := (hown.of_call hc).2
  have hasked : c.pc.asked = true := by rw [hpc]; rfl
  refine ⟨k,msg,hmem,htype,?_,hbody⟩
  rw [hid,← hkey,hcor.own c (List.mem_of_getElem? hc) hasked]

theorem requested_fields (hrequested : Requested H o p t request) (hc : p.calls[t]? = some c) :
    request.getHash = hashKey H c.name ∧ request.dataString = some c.req := by
  obtain ⟨d,hd,_,_,hbuild⟩ := hrequested
  obtain rfl := Option.some.inj (hc.symm.trans hd)
  obtain ⟨hcoherent,hheader⟩ := Message.build_spec hbuild
  refine ⟨?_,hcoherent.toCarries.dataString⟩
  rw [Message.getHash,hheader]
  rfl

/-- The response to the request of a call has what was computed for it. -/
theorem computed_of_answers {s : Process ℕ} {k : ℕ} (hrequested : Requested H o p t request)
    (hc : p.calls[t]? = some c) (hanswers : Answers s k request m)
    (hbody : m.dataString = some c.res) : Computed H s k request c.name c.req c.res := by
  obtain ⟨hkey,hdata⟩ := requested_fields hrequested hc
  obtain ⟨l,hl,hcontent,hanswered⟩ := hanswers
  obtain ⟨res,hres,houtcome⟩ := hanswered.body
  obtain rfl := Option.some.inj (hbody.symm.trans hres)
  have hhash : l.1.getHash = hashKey H c.name := (congrArg Content.hash hcontent).trans hkey
  rw [hhash,body_of_content hcontent,hdata] at houtcome
  exact ⟨l,hl,hcontent,houtcome⟩

/-- What a call whose id is its own returns is the body of a response to its
request, written at the other end. -/
theorem BothWays.returned {ι : Type*} {peer : Peers ι} {net : ι → Node} {a : ι}
    (h : BothWays o peer net a) (hcomposed : ∀ b, Composed H (lp64 o) (net b))
    (hcor : Correlation (net a).process) (hc : (net a).process.calls[t]? = some c)
    (hpc : c.pc = .returned .rpcOk) : ∃ k request l reply,
      (k,request) ∈ (net a).process.writes ∧ Requested H o (net a).process t request ∧
      peer a k = some l ∧ (l.2,reply) ∈ (net l.1).process.writes ∧ HasType reply .response ∧
      Answers (net l.1).process l.2 request reply ∧ reply.dataString = some c.res := by
  obtain ⟨pes,hpes⟩ := (hcomposed a).process
  obtain ⟨k,msg,hmem,htype,hid,hbody⟩ := response_of_return hpes hcor hc hpc
  obtain ⟨l,reply,request,hpeer,hreply,hreplytype,hcontent,hwritten,hreqtype,hanswered⟩ :=
    h.answers hcomposed hmem htype
  obtain ⟨ts,hts⟩ := run_called hpes
  have hin : request ∈ ofType .request ((net a).process.writes.map Prod.snd) :=
    mem_ofType.mpr ⟨List.mem_map.mpr ⟨_,hwritten,rfl⟩,hreqtype⟩
  obtain ⟨u,_,hwrote⟩ := MatchedLists.exists_left hts.requests hin
  have hrequested := hwrote.requested (run_made hpes)
  -- the request is that of the call, since the ids agree
  have hsame : u = t := by
    obtain ⟨d,hd,hsent,rfl⟩ := hwrote
    apply same_ticket hcor.numbered hd hc (ticket_of_sent hsent)
      (ticket_of_asked (by rw [hpc]; rfl))
    rw [← hanswered.id,id_of_content hcontent,hid]
  subst hsame
  exact ⟨k,request,l,reply,hwritten,hrequested,hpeer,hreply,hreplytype,hanswered,
    (body_of_content hcontent).trans hbody⟩

/-- It was computed there. -/
theorem BothWays.computed {ι : Type*} {peer : Peers ι} {net : ι → Node} {a : ι}
    (h : BothWays o peer net a) (hcomposed : ∀ b, Composed H (lp64 o) (net b))
    (hcor : Correlation (net a).process) (hc : (net a).process.calls[t]? = some c)
    (hpc : c.pc = .returned .rpcOk) : ∃ k request l, (k,request) ∈ (net a).process.writes ∧
      Requested H o (net a).process t request ∧ peer a k = some l ∧
      Computed H (net l.1).process l.2 request c.name c.req c.res := by
  obtain ⟨k,request,l,_,hwritten,hrequested,hpeer,_,_,hanswers,hbody⟩ :=
    h.returned hcomposed hcor hc hpc
  exact ⟨k,request,l,hwritten,hrequested,hpeer,computed_of_answers hrequested hc hanswers hbody⟩

end Calls

/-- With its connections wired, below `2 ^ 32` calls and with no two calls
between the two readings of the counter at once, whatever a call returns with
`RPCOK` was computed for it at the other end of one of the connections. -/
theorem returns_computed {ι : Type*} [DecidableEq ι] (H : Bytes → ℕ) (o : ByteOrder)
    (peer : Peers ι) (es : List (ι × NodeState.Event)) (net : ι → Node) (a : ι) (t : ℕ)
    (c : Invocation) (hrun : exec (NetworkState.step H (lp64 o) peer) start es = some net)
    (hwired : Wired H o peer es net a) (hlen : (net a).process.calls.length < 2 ^ 32)
    (hcalm : AllSteps (NetworkState.step H (lp64 o) peer)
      (fun net e => e.1 = a → Calm (net a) e.2) start es)
    (hc : (net a).process.calls[t]? = some c) (hpc : c.pc = .returned .rpcOk) :
    ∃ k request l, (k,request) ∈ (net a).process.writes ∧
      Requested H o (net a).process t request ∧ peer a k = some l ∧
      Computed H (net l.1).process l.2 request c.name c.req c.res := by
  have hcor := node_correlation (run_node hrun a) (Interleavings.allSteps_member hcalm hrun) hlen
  exact (hwired.bothWays hrun).computed (run_composed hrun) hcor hc hpc

/-- The client's call takes the response and returns. -/
def returnedRun : List (Bool × NodeState.Event) :=
  exchangeRun ++ List.replicate 3 (false,.thread (.run 0))

set_option maxRecDepth 20000 in
theorem returnedRun_paced : (∀ b, AllSteps (NetworkState.step (fun _ => 5) (lp64 .little) pair)
      (PacedAt (fun _ => 5) (lp64 .little) (b,0)) start returnedRun) ∧
    AllSteps (NetworkState.step (fun _ => 5) (lp64 .little) pair)
      (fun net e => e.1 = false → Calm (net false) e.2) start returnedRun := by decide +kernel

theorem returns_computed_pair :
    ∃ net ∈ exec (NetworkState.step (fun _ => 5) (lp64 .little) pair) start returnedRun,
      ∃ c ∈ (net false).process.calls[0]?, c.res = [7] ∧ ∃ k request l,
        (k,request) ∈ (net false).process.writes ∧
        Requested (fun _ => 5) .little (net false).process 0 request ∧ pair false k = some l ∧
        Computed (fun _ => 5) (net l.1).process l.2 request c.name c.req c.res := by
  have hrun : ∃ net ∈ exec (NetworkState.step (fun _ => 5) (lp64 .little) pair) start returnedRun,
      (net false).conns.length = 1 ∧ (net false).process.calls.length < 2 ^ 32 ∧
        ∃ c ∈ (net false).process.calls[0]?, c.pc = .returned .rpcOk ∧ c.res = [7] := by
    decide +kernel
  obtain ⟨net,hnet,hone,hlen,c,hc,hpc,hres⟩ := hrun
  exact ⟨net,hnet,c,hc,hres,returns_computed _ _ pair _ net false 0 c hnet
    (wired_pair returnedRun_paced.1 hone) hlen returnedRun_paced.2 hc hpc⟩

end SindiaRpc.NetworkSafety
