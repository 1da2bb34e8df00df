import SindiaRpc.EndToEnd
import SindiaRpc.Routing

/-!
# Requests without a handler

`handle` returns early where it finds no handler and where the handler is
empty, and `dispatch` goes on to answer with error code 0 and an empty body all
the same. The call that receives this answer returns `RPCOK`.
-/
namespace SindiaRpc.MissingHandlers
open MessageFrames DispatcherTable PromiseTables RpcChannel RpcProcess GuardedRuns PromiseKeys
  ResponseOrder CallProgress FrameBounds StreamReading EndToEnd Routing KeyedRoutes ListUpdates

variable {κ : Type*}

/-- A call of `name` on `req` waits in the reachable state `u` under the id of
its request; the peer dispatches the request and answers it with `reply`. -/
structure Exchange (H : Bytes → ℕ) (o : ByteOrder) (p : Process κ) (name req : Bytes)
    (u : Process κ) (t : ℕ) (p' : Process κ) (reply : Message) : Prop where
  reached : ∃ conn es, exec (step H o) (init conn) es = some u
  waits : ∃ c, u.calls[t]? = some c ∧ c.name = name ∧ c.req = req ∧ c.pc = .wait ∧
    u.channel.prommap.find c.msg.header.id = some t ∧ ∃ d k, ReadAs o c.msg d ∧
      step H o p (.receive k d) = some p' ∧ p'.writes = p.writes ++ [(k,reply)]

/-- A response to a request for which no handler ran carries an error code. -/
def FrameTells (H : Bytes → ℕ) (o : ByteOrder) (p : Process κ) (name req : Bytes) : Prop :=
  ∀ u t p' reply, Exchange H o p name req u t p' reply → p'.ran = p.ran → reply.getErrcode ≠ 0

/-- A call that gets such a response does not return `RPCOK`. -/
def CallTells (H : Bytes → ℕ) (o : ByteOrder) (p : Process κ) (name req : Bytes) : Prop :=
  ∀ u t p' reply, Exchange H o p name req u t p' reply → p'.ran = p.ran →
    ∀ d k v, ReadAs o reply d → step H o u (.receive k d) = some v →
      ∀ es w c, exec (step H o) v es = some w → w.calls[t]? = some c → c.pc ≠ .returned .rpcOk

section Exchange
variable {H : Bytes → ℕ} {o : ByteOrder} {p p' u : Process κ} {t : ℕ} {reply : Message}
  {name req : Bytes}

/-- The handler bound to the name's key runs on the request. -/
theorem Exchange.ran (h : Exchange H o p name req u t p' reply) :
    p'.ran = p.ran ++ (bound p.callmap (hashKey H name)).toList.map (fun h => (h,req)) ∧
      req.length ≤ 4076 := by
  obtain ⟨⟨conn,es,hrun⟩,c,hc,rfl,rfl,hpc,_,d,k,hread,hs,_⟩ := h
  have hasked : c.pc.asked = true := by rw [hpc]; rfl
  have hmade := (run_made hrun c (List.mem_of_getElem? hc)).2 (Or.inr hasked)
  rw [assembled_asked hasked] at hmade
  obtain ⟨htype,_,hhash,hbody⟩ := fields_of_readAs (x := ⟨_,_,_,_,_⟩) hmade.symm hread
  have hkey : d.getHash = hashKey H c.name := congrArg UInt32.toNat hhash
  obtain ⟨x,hx,rfl⟩ := step_receive.mp hs
  refine ⟨?_,(Message.build_spec hmade.symm).1.fits⟩
  rw [Process.deliver,dispatch_ran (Or.inl htype) hbody hx,hkey]

/-- A client that does nothing else comes to wait for its response. -/
theorem client_waits (H : Bytes → ℕ) (o : ByteOrder) (name : Bytes) (k : κ)
    (hreq : req.length ≤ 4076) :
    ∃ (request : Message) (es : List (Event κ)) (u : Process κ) (id : UInt32) (c : Invocation),
      Message.build o req MsgType.request.code id (UInt32.ofNat (H name)) 0 = some request ∧
      exec (step H o) (init (some k)) es = some u ∧ Underway H o 0 id request [] u ∧
      u.channel.prommap.find id = some 0 ∧ u.calls[0]? = some c ∧ c.name = name ∧ c.req = req ∧
      c.pc = .wait ∧ c.msg = request ∧ request.header.id = id := by
  cases hrequest : Message.build o req MsgType.request.code ((init (some k)).channel.callid + 1)
      (UInt32.ofNat (H name)) 0 with
  | none =>
      have hlong : 4076 < req.length := Message.build_eq_none.mp hrequest
      omega
  | some request =>
      have hentered : step H o (init (some k)) (.call name req []) = some _ := rfl
      obtain ⟨hstart,hleft⟩ := underway_of_entered (init_keyed _) (by simp [init]) (by simp [init])
        hrequest hentered
      obtain ⟨u,hu⟩ := hstart.runs 9
      obtain ⟨hway,hrank⟩ := hstart.run (by simp [Beside]) hu
      have hfind := hway.found (by simp [own] at hrank hleft ⊢; omega)
      obtain ⟨c,hc,hname,hreq⟩ := run_arguments hu (t := 0) rfl
      obtain ⟨c',ws,hc',hpc,_⟩ := hway.waits hfind
      obtain rfl := Option.some.inj (hc.symm.trans hc')
      obtain ⟨d,_,hd,_,hstage⟩ := hway.stage
      obtain rfl := Option.some.inj (hc.symm.trans hd)
      have hmsg := hstage.made
      rw [assembled_asked (by rw [hpc]; rfl),Option.some.injEq] at hmsg
      exact ⟨request,_,u,_,c,hrequest,(exec_cons_eq_some _).mpr ⟨_,hentered,hu⟩,hway,hfind,hc,
        hname,hreq,hpc,hmsg,by rw [(Message.build_spec hrequest).2]⟩

/-- Without a handler, a request that fits is answered as if it had succeeded,
and its call returns `RPCOK`. -/
theorem unhandled_succeeds (H : Bytes → ℕ) (o : ByteOrder) (p : Process κ) (name req : Bytes)
    (k : κ) (hreq : req.length ≤ 4076) (hnone : bound p.callmap (hashKey H name) = none) :
    ∃ u t p' reply, Exchange H o p name req u t p' reply ∧ p'.ran = p.ran ∧
      reply.getErrcode = 0 ∧ ∃ d v, ReadAs o reply d ∧ step H o u (.receive k d) = some v ∧
        ∃ es w c, exec (step H o) v es = some w ∧ w.calls[t]? = some c ∧
          c.pc = .returned .rpcOk := by
  obtain ⟨request,es,u,id,c,hrequest,hu,hway,hfind,hc,hname,hargs,hpc,hmsg,hid⟩ :=
    client_waits H o name k hreq
  have hempty : result p.callmap (hashKey H name) req = [] := by simp [result,hnone]
  obtain ⟨d,hd⟩ := readAs_exists (x := ⟨req,_,_,_,_⟩) hrequest
  obtain ⟨p',reply,hp',hwrites,hran,hreply⟩ :=
    peer_replies (H := H) (p := p) (k := k) hrequest hd (by simp [hempty])
  obtain ⟨d',hd'⟩ := readAs_exists hreply
  obtain ⟨v,hv,hreturned⟩ := response_returned (k := k) hway hfind hreply hd'
  have hanswered : Answered H o v 0 _ := hreturned.completes.1
  obtain ⟨w,hw⟩ := hanswered.returns
  obtain ⟨c',hc',_,hok⟩ := hanswered.result _ w hw
  rw [hnone,Option.toList_none,List.map_nil,List.append_nil] at hran
  refine ⟨u,0,p',reply,⟨⟨_,es,hu⟩,c,hc,hname,hargs,hpc,?_,d,k,?_,hp',hwrites⟩,hran,?_,
    d',v,hd',hv,_,w,c',hw,hc',hok (by simp [own])⟩
  · rwa [hmsg,hid]
  · rwa [hmsg]
  · rw [Message.getErrcode,(Message.build_spec hreply).2]
    rfl

end Exchange

/-- The first registration under the name's key has a handler, or the request is
too long to be sent. -/
def Answerable (H : Bytes → ℕ) (regs : List (Bytes × Handler)) (name req : Bytes) : Prop :=
  (route (hashKey H) regs name).join.isSome = true ∨ 4076 < req.length

section Reports
variable {H : Bytes → ℕ} {o : ByteOrder} {conn : Option κ} {peer : List (Event κ)}
  {p p' u : Process κ} {t : ℕ} {reply : Message} {name req : Bytes}

theorem Answerable.ran (hpeer : exec (step H o) (init conn) peer = some p)
    (h : Answerable H (peer.filterMap registration) name req)
    (hex : Exchange H o p name req u t p' reply) : p'.ran ≠ p.ran := by
  intro hsame
  obtain ⟨hran,hfits⟩ := hex.ran
  rcases h with hfound | hlong
  · obtain ⟨h,hroute⟩ := Option.isSome_iff_exists.mp hfound
    rw [run_bound hpeer,hroute,hsame] at hran
    simp at hran
  · omega

theorem unbound_of_not_answerable (hpeer : exec (step H o) (init conn) peer = some p)
    (h : ¬ Answerable H (peer.filterMap registration) name req) :
    bound p.callmap (hashKey H name) = none ∧ req.length ≤ 4076 := by
  rw [Answerable,not_or,Option.not_isSome_iff_eq_none,Nat.not_lt] at h
  rwa [run_bound hpeer]

end Reports

/-- Failures are reported, in the frame and by the call, exactly for requests
that do not fail and for those that are never sent. -/
theorem failure_reported_iff (H : Bytes → ℕ) (o : ByteOrder) (conn : Option κ)
    (peer : List (Event κ)) (p : Process κ) (name req : Bytes) (k : κ)
    (hpeer : exec (step H o) (init conn) peer = some p) :
    (FrameTells H o p name req ↔ Answerable H (peer.filterMap registration) name req) ∧
      (CallTells H o p name req ↔ Answerable H (peer.filterMap registration) name req) := by
  constructor
  · constructor
    · intro htells
      by_contra hnot
      obtain ⟨hnone,hfits⟩ := unbound_of_not_answerable hpeer hnot
      obtain ⟨u,t,p',reply,hex,hsame,herr,_⟩ := unhandled_succeeds H o p name req k hfits hnone
      exact htells u t p' reply hex hsame herr
    · intro hanswerable u t p' reply hex hsame
      exact absurd hsame (hanswerable.ran hpeer hex)
  · constructor
    · intro htells
      by_contra hnot
      obtain ⟨hnone,hfits⟩ := unbound_of_not_answerable hpeer hnot
      obtain ⟨u,t,p',reply,hex,hsame,_,d,v,hd,hv,es,w,c,hw,hc,hpc⟩ :=
        unhandled_succeeds H o p name req k hfits hnone
      exact htells u t p' reply hex hsame d k v hd hv es w c hw hc hpc
    · intro hanswerable u t p' reply hex hsame
      exact absurd hsame (hanswerable.ran hpeer hex)

theorem failure_reported_iff_registered :
    (FrameTells (fun _ => 5) .little echoing [1] [7] ↔
        Answerable (fun _ => 5) [([1],some id)] [1] [7]) ∧
      (CallTells (fun _ => 5) .little echoing [1] [7] ↔
        Answerable (fun _ => 5) [([1],some id)] [1] [7]) :=
  failure_reported_iff _ _ (some 0) [.reghandler [1] (some id)] _ _ _ 0 rfl

/-- A peer without any handler. -/
theorem missing_handler_succeeds :
    (¬ ∀ (p : Process ℕ) (name req : Bytes), FrameTells (fun _ => 5) .little p name req) ∧
      ¬ ∀ (p : Process ℕ) (name req : Bytes), CallTells (fun _ => 5) .little p name req := by
  obtain ⟨u,t,p',reply,hex,hsame,herr,d,v,hd,hv,es,w,c,hw,hc,hpc⟩ :=
    unhandled_succeeds (fun _ => 5) .little (init (some 0)) [1] [7] 0 (by simp) rfl
  constructor
  · intro h
    exact h _ _ _ u t p' reply hex hsame herr
  · intro h
    exact h _ _ _ u t p' reply hex hsame d 0 v hd hv es w c hw hc hpc

end SindiaRpc.MissingHandlers
