import SindiaRpc.StreamReading
import SindiaRpc.FrameBounds
import SindiaRpc.CallProgress

/-!
# A call from one process to another and back

The request that `Call` writes is read by a loop of the peer, dispatched to the
handler registered for its name, and answered; the answer is read by a loop of
the caller, dispatched to the promise of the call, and returned. Each loop may
have read any other frames before.
-/
namespace SindiaRpc.EndToEnd
open MessageFrames DispatcherTable KeyedRoutes PromiseTables RpcChannel RpcProcess GuardedRuns
  PromiseKeys ResponseOrder CallProgress FrameBounds StreamReading ListUpdates

/-- `d` is what a read loop dispatches for the frame of `msg`: some stream of
frames ends in it, and a loop that has read all of it dispatched `d` last. -/
def ReadAs (o : ByteOrder) (msg d : Message) : Prop :=
  ∃ (xs : List Outgoing) (msgs : List Message) (m : Message) (cb : Bool) (addr : String)
    (es : List ConnectionState.Event) (q : ConnectionState.Connection) (ds : List Message),
    List.Forall₂ (fun x m => Outgoing.build o x = some m) xs msgs ∧ (∀ e ∈ es, Smooth e) ∧
    exec (ConnectionState.step (lp64 o)) (ConnectionState.started m cb addr) es = some q ∧
    q.received = ConnectionWrites.frames (lp64 o) (msgs ++ [msg]) ∧ Quiescent q ∧
    q.dispatched = ds ++ [d]

section Reading
variable {o : ByteOrder} {x : Outgoing} {msg d : Message}

theorem content_of_readAs (hx : x.build o = some msg) (h : ReadAs o msg d) :
    content d = x.content := by
  obtain ⟨xs,msgs,m,cb,addr,es,q,ds,hmsgs,hes,hrun,hrec,hq,hd⟩ := h
  have hall : List.Forall₂ (fun x m => Outgoing.build o x = some m) (xs ++ [x]) (msgs ++ [msg]) :=
    List.rel_append hmsgs (.cons hx .nil)
  have hcontents := contents_read hall hes hrun hrec hq
  rw [hd,List.map_append,List.map_append] at hcontents
  exact List.singleton_injective (List.append_inj_right' hcontents rfl)

/-- The fields that `dispatch` looks at. -/
theorem fields_of_readAs (hx : x.build o = some msg) (h : ReadAs o msg d) :
    d.getType = x.type.toNat ∧ d.header.id = x.id ∧ d.header.hash = x.hash ∧
      d.dataString = some x.data := by
  have hcontent := content_of_readAs hx h
  simp only [content,Outgoing.content,Content.mk.injEq] at hcontent
  obtain ⟨htype,hid,hhash,_,_,hbody⟩ := hcontent
  exact ⟨htype,UInt32.toNat_inj.mp hid,UInt32.toNat_inj.mp hhash,hbody⟩

/-- Every built frame is read as something. -/
theorem readAs_exists (hx : x.build o = some msg) : ∃ d, ReadAs o msg d := by
  obtain ⟨es,q,hes,hrun,hrec,hq⟩ := stream_is_read (lp64_wide o) .empty true ""
    (ConnectionWrites.frames (lp64 o) [msg])
  have hone := contents_read (.cons hx .nil) hes hrun hrec hq
  obtain ⟨d,hd⟩ : ∃ d, q.dispatched = [d] := by
    apply List.length_eq_one_iff.mp
    simpa using congrArg List.length hone
  exact ⟨d,[],[],.empty,true,"",es,q,[],.nil,hes,hrun,hrec,hq,hd⟩

end Reading

variable {κ : Type*}

section Caller
variable {H : Bytes → ℕ} {o : ByteOrder} {s s' : Process κ} {e : Event κ} {t : ℕ} {id : UInt32}
  {body : Bytes} {request : Message} {before : List (κ × Message)}

/-- The call will return `body`, and takes its entry out of the table when it
does. -/
structure Returned (t : ℕ) (id : UInt32) (body : Bytes) (s : Process κ) : Prop where
  alone : Alone t s
  due : Due s t body
  cleared : ∀ d, s.calls[t]? = some d →
    d.callid = id ∧ (d.pc.ended = true → s.channel.prommap.find id = none)

theorem Returned.step (h : Returned t id body s) (he : ∀ n r x, e ≠ .call n r x)
    (hs : RpcProcess.step H o s e = some s') : Returned t id body s' := by
  have hdue := (h.due.step hs).1
  cases hown : own t e with
  | false =>
      obtain ⟨hcalls,hchannel⟩ := h.alone.other hown he hs
      have hfind : s'.channel.prommap.find id = s.channel.prommap.find id := by
        rcases hchannel with hch | ⟨_,_,hch⟩ | ⟨_,_,_,_,_,_,_,hch⟩
        · rw [hch]
        · rw [hch]
        · rw [hch,PromiseTable.find_fulfil]
      refine ⟨h.alone.of_calls hcalls,hdue,?_⟩
      intro d hd
      rw [hcalls] at hd
      rw [hfind]
      exact h.cleared d hd
  | true =>
      obtain ⟨d,hd,rfl⟩ := h.due.own_step hown hs
      refine ⟨h.alone.apply _,hdue,?_⟩
      obtain ⟨hid,hcleared⟩ := h.cleared d hd
      obtain ⟨hvalue,d',hd',hret⟩ := h.due
      obtain rfl := Option.some.inj (hd.symm.trans hd')
      have hself := Process.calls_apply_self hd (s.channel.getResponse t d)
      intro x hx
      obtain rfl := Option.some.inj (hself.symm.trans hx)
      change _ ∧ (_ → (s.channel.getResponse t d).channel.prommap.find id = none)
      rcases hret with hpc | hpc | ⟨_,hpc | hpc⟩
      · simp [Rpcchannel.getResponse,hpc,hvalue,hid,Pc.ended]
      · simp [Rpcchannel.getResponse,hpc,hvalue,hid,Pc.ended]
      · simp [Rpcchannel.getResponse,hpc,hid]
      · simp [Rpcchannel.getResponse,hpc,hid,hcleared (by rw [hpc]; rfl)]

/-- The response of a waiting call, once read, is on its way to be returned. -/
theorem response_returned (h : Underway H o t id request before s)
    (hfind : s.channel.prommap.find id = some t) {reply d : Message} {hash : UInt32} {k : κ}
    (hreply : Outgoing.build o ⟨body,MsgType.response.code,id,hash,0⟩ = some reply)
    (hd : ReadAs o reply d) :
    ∃ s', RpcProcess.step H o s (.receive k d) = some s' ∧ Returned t id body s' := by
  obtain ⟨htype,hid,_,hbody⟩ := fields_of_readAs hreply hd
  obtain ⟨c,ws,hc,hpc,hkey,_,_,hpending⟩ := h.waits hfind
  rw [← show d.header.id = id from hid] at hfind
  refine ⟨_,step_found htype hfind hbody hpending,h.alone,⟨by simp [fulfilled],c,hc,Or.inl hpc⟩,?_⟩
  intro x hx
  obtain rfl := Option.some.inj (hc.symm.trans hx)
  refine ⟨hkey,?_⟩
  intro hended
  rw [hpc] at hended
  cases hended

end Caller

section Peer
variable {H : Bytes → ℕ} {o : ByteOrder} {p : Process κ} {k : κ} {d request : Message}
  {name req : Bytes} {h : Bytes → Bytes} {id : UInt32}

/-- The peer, from the read request on: the handler bound to the name's key, if
any, runs on the request and the result is written back with the request's
id. -/
theorem peer_replies (hrequest : Outgoing.build o
      ⟨req,MsgType.request.code,id,UInt32.ofNat (H name),0⟩ = some request)
    (hd : ReadAs o request d)
    (hres : (result p.callmap (hashKey H name) req).length ≤ 4076) :
    ∃ p₁ reply, step H o p (.receive k d) = some p₁ ∧ p₁.writes = p.writes ++ [(k,reply)] ∧
      p₁.ran = p.ran ++ (bound p.callmap (hashKey H name)).toList.map (fun h => (h,req)) ∧
      Outgoing.build o ⟨result p.callmap (hashKey H name) req,MsgType.response.code,id,
        d.header.hash,0⟩ = some reply := by
  obtain ⟨htype,hid,hhash,hbody⟩ := fields_of_readAs hrequest hd
  have hkey : d.getHash = hashKey H name := congrArg UInt32.toNat hhash
  rw [← hkey] at hres ⊢
  rw [← show d.header.id = id from hid]
  cases hreply : response o d (result p.callmap d.getHash req) with
  | none =>
      rw [response_eq_build,Message.build_eq_none] at hreply
      omega
  | some reply =>
      exact ⟨_,reply,step_receive.mpr ⟨_,dispatch_answers htype hbody hreply,rfl⟩,rfl,rfl,
        (response_eq_build o d _).symm.trans hreply⟩

theorem peer_answers (hbound : bound p.callmap (hashKey H name) = some h)
    (hrequest : Outgoing.build o
      ⟨req,MsgType.request.code,id,UInt32.ofNat (H name),0⟩ = some request)
    (hd : ReadAs o request d) (hres : (h req).length ≤ 4076) :
    ∃ p₁ reply, step H o p (.receive k d) = some p₁ ∧ p₁.writes = p.writes ++ [(k,reply)] ∧
      p₁.ran = p.ran ++ [(h,req)] ∧
      Outgoing.build o ⟨h req,MsgType.response.code,id,d.header.hash,0⟩ = some reply := by
  have hresult : result p.callmap (hashKey H name) req = h req := by simp [result,hbound]
  obtain ⟨p₁,reply,hstep,hwrites,hran,hreply⟩ :=
    peer_replies (k := k) hrequest hd (by rwa [hresult])
  rw [hbound] at hran
  rw [hresult] at hreply
  exact ⟨p₁,reply,hstep,hwrites,hran,hreply⟩

end Peer

/-- What a caller relies on once the response has been dispatched. -/
def Completes (H : Bytes → ℕ) (o : ByteOrder) (t : ℕ) (id : UInt32) (body : Bytes)
    (s : Process κ) : Prop :=
  Answered H o s t body ∧ ∀ es s' c, (∀ e ∈ es, ∀ n r x, e ≠ .call n r x) →
    exec (step H o) s es = some s' → s'.calls[t]? = some c → c.pc.ended = true →
      s'.channel.prommap.find id = none

theorem Returned.completes {H : Bytes → ℕ} {o : ByteOrder} {s : Process κ} {t : ℕ} {id : UInt32}
    {body : Bytes} (h : Returned t id body s) : Completes H o t id body s := by
  refine ⟨h.due.answered,?_⟩
  intro es s' c hes hrun hc hended
  have hend : Returned t id body s' := by
    apply exec_invariant (RpcProcess.step H o) (A := fun e => ∀ n r x, e ≠ .call n r x)
      ?_ hes h hrun
    exact fun s e s' he hs hstep => hs.step he hstep
  exact (hend.cleared c hc).2 hended

/-- A call of `name` on `req`, entered in state `s` of the caller and handled by
`h` in state `p` of the peer. -/
structure Succeeds (H : Bytes → ℕ) (o : ByteOrder) (s p : Process κ) (name req res : Bytes)
    (h : Bytes → Bytes) : Prop where
  runs : ∀ n, ∃ u, exec (step H o) s
    (.call name req res :: List.replicate n (.run s.calls.length)) = some u
  registers : ∀ es u, (∀ e ∈ es, Beside s.calls.length (s.channel.callid + 1) e) →
    exec (step H o) s (.call name req res :: es) = some u → 9 ≤ es.countP (own s.calls.length) →
      u.channel.prommap.find (s.channel.callid + 1) = some s.calls.length
  returns : ∀ es u, (∀ e ∈ es, Beside s.calls.length (s.channel.callid + 1) e) →
    exec (step H o) s (.call name req res :: es) = some u →
    u.channel.prommap.find (s.channel.callid + 1) = some s.calls.length →
      ∃ request ws k, u.writes = s.writes ++ ws ∧ (k,request) ∈ ws ∧ (∃ d, ReadAs o request d) ∧
        ∀ d, ReadAs o request d → ∀ k', ∃ p' reply, step H o p (.receive k' d) = some p' ∧
          p'.writes = p.writes ++ [(k',reply)] ∧ p'.ran = p.ran ++ [(h,req)] ∧
          (∃ d', ReadAs o reply d') ∧ ∀ d', ReadAs o reply d' → ∀ k, ∃ v,
            step H o u (.receive k d') = some v ∧
            Completes H o s.calls.length (s.channel.callid + 1) (h req) v

/-- A call whose request and response are read on the way returns `RPCOK` with
the handler's result: the handler runs once, on the request, and the promise
leaves the table. The peer's handlers are those of any sequence of `reghandler`
calls in which the name occurs once and its key belongs to no other name. -/
theorem call_end_to_end (H : Bytes → ℕ) (o : ByteOrder) (conn conn' : Option κ)
    (client peer : List (Event κ)) (s p : Process κ) (name req res : Bytes) (h : Bytes → Bytes)
    (hclient : exec (step H o) (init conn) client = some s)
    (hidle : ∀ c ∈ s.calls, c.pc.ended = true) (hconn : s.channel.conn ≠ none)
    (hpeer : exec (step H o) (init conn') peer = some p)
    (honce : (peer.filterMap registration).filter (fun r => r.1 = name) = [(name,some h)])
    (hkey : ∀ r ∈ peer.filterMap registration, r.1 ≠ name → hashKey H r.1 ≠ hashKey H name)
    (hreq : req.length ≤ 4076) (hres : (h req).length ≤ 4076) :
    Succeeds H o s p name req res h := by
  have hown : Unshared (hashKey H) (peer.filterMap registration) name := by
    intro r hr hsame
    by_contra hname
    exact hkey r hr hname hsame
  have hbound : bound p.callmap (hashKey H name) = some h := by
    rw [run_bound hpeer,route_once hown honce]
    rfl
  cases hrequest : Message.build o req MsgType.request.code (s.channel.callid + 1)
      (UInt32.ofNat (H name)) 0 with
  | none =>
      have hlong : 4076 < req.length := Message.build_eq_none.mp hrequest
      omega
  | some request =>
      obtain ⟨hstart,hleft⟩ := underway_of_entered (run_keyed hclient) hidle hconn hrequest
        (show step H o s (.call name req res) = some _ from rfl)
      constructor
      · intro n
        obtain ⟨u,hu⟩ := hstart.runs n
        exact ⟨u,(exec_cons_eq_some _).mpr ⟨_,rfl,hu⟩⟩
      · intro es u hes hrun hcount
        obtain ⟨_,hs,hrun⟩ := (exec_cons_eq_some _).mp hrun
        cases hs
        obtain ⟨hway,hrank⟩ := hstart.run hes hrun
        exact hway.found (by omega)
      · intro es u hes hrun hfind
        obtain ⟨_,hs,hrun⟩ := (exec_cons_eq_some _).mp hrun
        cases hs
        obtain ⟨hway,_⟩ := hstart.run hes hrun
        obtain ⟨_,ws,_,_,_,hws,⟨k,hk⟩,_⟩ := hway.waits hfind
        refine ⟨request,ws,k,hws,hk,readAs_exists (x := ⟨req,_,_,_,_⟩) hrequest,?_⟩
        intro d hd k'
        obtain ⟨p',reply,hp',hwrites,hran,hreply⟩ := peer_answers (k := k') hbound hrequest hd hres
        refine ⟨p',reply,hp',hwrites,hran,readAs_exists hreply,?_⟩
        intro d' hd' k
        obtain ⟨v,hv,hreturned⟩ := response_returned (k := k) hway hfind hreply hd'
        exact ⟨v,hv,hreturned.completes⟩

/-- Two handlers under different keys. -/
def twoNames : List (Bytes × Handler) := [([1],some id),([2,3],some List.reverse)]

theorem call_end_to_end_echo : Succeeds List.length .little (init (some 0))
    {init (some 1) with callmap := registered List.length twoNames ∅} [1] [7,0] [] id := by
  have hother : ∀ r ∈ twoNames, r.1 ≠ [1] →
      hashKey List.length r.1 ≠ hashKey List.length [1] := by
    intro r hr hne
    rcases List.mem_pair.mp hr with rfl | rfl
    · exact absurd rfl hne
    · decide
  exact call_end_to_end _ _ (some 0) (some 1) []
    [.reghandler [1] (some id),.reghandler [2,3] (some List.reverse)] _ _ _ _ _ _ rfl
    (by simp [init]) (by simp [init]) rfl (by simp [registration]) hother (by simp) (by simp)

end SindiaRpc.EndToEnd
