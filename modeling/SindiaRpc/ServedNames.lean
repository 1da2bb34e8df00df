import SindiaRpc.ServerHost

/-!
# A name that a process serves

`emplace` never replaces a handler. If the first handler under the key of a name is
registered before any message is dispatched, it is the one that runs on every
message with this key, and every response with the key carries what it returned.
`TcpServer::Start` registers `"hello"` before it begins to accept.
-/
namespace SindiaRpc.ServedNames
open MessageFrames DispatcherTable RpcProcess ServerState ProcessWrites CallProgress FrameBounds
  NodeHistories Hosts ServerHost GuardedRuns
open ClientState (helloName)

/-- A message on which `dispatch` calls `handle`. -/
def Asks (m : Message) : Prop := HasType m .request ∨ HasType m .notify

instance (m : Message) : Decidable (Asks m) := inferInstanceAs (Decidable (_ ∨ _))

section Dispatch
variable {κ : Type*} {o : ByteOrder} {callmap : Callmap} {k : κ} {msg : Message}
  {ch : RpcChannel.Rpcchannel κ} {d : Dispatched κ} {handled : Handled} {f : Bytes → Bytes}

theorem handle_bound (hbound : bound callmap msg.getHash = some f)
    (h : handle callmap msg [] = .ok handled) :
    ∃ req, msg.dataString = some req ∧ handled = ⟨f req,[(f,req)]⟩ := by
  rw [bound_eq_some] at hbound
  simp only [handle,hbound] at h
  cases hreq : msg.dataString with
  | none => simp [hreq] at h
  | some req =>
      rw [hreq] at h
      exact ⟨req,rfl,(Except.ok.inj h).symm⟩

theorem dispatch_handles (hasks : Asks msg) (h : dispatch o callmap (some k) msg ch = .ok d) :
    ∃ handled, handle callmap msg [] = .ok handled ∧ d.ran = handled.ran := by
  rcases hasks with hm | hm
  · rcases dispatch_writes h with ⟨hnot,_⟩ | ⟨_,handled,_,hhandle,_,rfl⟩
    · exact absurd hm hnot
    · exact ⟨handled,hhandle,rfl⟩
  · rw [dispatch,if_neg (types_apart hm (by decide)),if_neg (types_apart hm (by decide)),
      if_pos hm] at h
    split at h
    · cases h
    · rename_i handled hhandle
      cases h
      exact ⟨handled,hhandle,rfl⟩

end Dispatch

/-- `f` is the only handler under the key of `name` and runs whenever it is asked
for. -/
structure Serves {κ : Type*} (H : Bytes → ℕ) (o : ByteOrder) (name : Bytes) (f : Bytes → Bytes)
    (p : Process κ) : Prop where
  run : ∃ conn es, exec (RpcProcess.step H o) (init conn) es = some p
  table : ∀ g ∈ p.callmap.lookup (hashKey H name), g = some f
  ran : ∀ r ∈ p.received, Asks r.2 → r.2.getHash = hashKey H name →
    ∃ req, r.2.dataString = some req ∧ (f,req) ∈ p.ran
  replies : ∀ w ∈ p.writes, HasType w.2 .response → w.2.getHash = hashKey H name →
    ∃ req, w.2.dataString = some (f req) ∧ (f,req) ∈ p.ran

section Steps
variable {κ : Type*} {H : Bytes → ℕ} {o : ByteOrder} {name : Bytes} {f : Bytes → Bytes}
  {p p' : Process κ} {e : RpcProcess.Event κ}

theorem lookup_step (hs : RpcProcess.step H o p e = some p') (k : ℕ) :
    p'.callmap.lookup k = (p.callmap.lookup k <|>
      ((registration e).bind fun r => if hashKey H r.1 = k then some r.2 else none)) := by
  have hone : exec (RpcProcess.step H o) p [e] = some p' :=
    (exec_cons_eq_some _).mpr ⟨p',hs,rfl⟩
  rw [run_callmap hone,lookup_registered]
  cases hreg : registration e with
  | none => simp [hreg]
  | some r =>
      by_cases hk : hashKey H r.1 = k
      · simp [hreg,hk]
      · simp [hreg,hk]

theorem Serves.init (conn : Option κ) : Serves H o name f (init conn) :=
  ⟨⟨conn,[],rfl⟩,nofun,nofun,nofun⟩

/-- A message that is dispatched once the handler is bound. -/
theorem Serves.delivered {k : κ} {msg : Message} {d : Dispatched κ} (h : Serves H o name f p)
    (hbound : bound p.callmap (hashKey H name) = some f)
    (done : dispatch o p.callmap (some k) msg p.channel = .ok d) :
    (∀ r ∈ (p.deliver k msg d).received, Asks r.2 → r.2.getHash = hashKey H name →
      ∃ req, r.2.dataString = some req ∧ (f,req) ∈ (p.deliver k msg d).ran) ∧
    ∀ w ∈ (p.deliver k msg d).writes, HasType w.2 .response → w.2.getHash = hashKey H name →
      ∃ req, w.2.dataString = some (f req) ∧ (f,req) ∈ (p.deliver k msg d).ran := by
  constructor
  · intro r hr hasks hkey
    rcases List.mem_append.mp hr with hr | hr
    · obtain ⟨req,hreq,hran⟩ := h.ran r hr hasks hkey
      exact ⟨req,hreq,List.mem_append_left _ hran⟩
    · obtain rfl := List.mem_singleton.mp hr
      obtain ⟨handled,hhandle,hran⟩ := dispatch_handles hasks done
      rw [← hkey] at hbound
      obtain ⟨req,hreq,rfl⟩ := handle_bound hbound hhandle
      refine ⟨req,hreq,List.mem_append_right _ ?_⟩
      rw [hran]
      exact List.mem_singleton_self _
  · intro w hw htype hkey
    rcases List.mem_append.mp hw with hw | hw
    · obtain ⟨req,hreq,hran⟩ := h.replies w hw htype hkey
      exact ⟨req,hreq,List.mem_append_left _ hran⟩
    · rcases dispatch_writes done with ⟨_,hd⟩ | ⟨_,handled,reply,hhandle,hreply,rfl⟩
      · rw [hd] at hw
        cases hw
      · obtain rfl := List.mem_singleton.mp hw
        obtain ⟨_,_,hhash,hdata⟩ := response_header hreply
        have hsame : msg.getHash = hashKey H name := (congrArg UInt32.toNat hhash).symm.trans hkey
        rw [← hsame] at hbound
        obtain ⟨req,_,rfl⟩ := handle_bound hbound hhandle
        exact ⟨req,hdata,List.mem_append_right _ (List.mem_singleton_self _)⟩

theorem Serves.step (h : Serves H o name f p)
    (hregistered : ∀ n g, e = .reghandler n g → hashKey H n = hashKey H name → g = some f)
    (hready : ∀ k msg, e = .receive k msg → bound p.callmap (hashKey H name) = some f)
    (hs : RpcProcess.step H o p e = some p') : Serves H o name f p' := by
  obtain ⟨conn,es,hes⟩ := h.run
  have hrun : ∃ conn es, exec (RpcProcess.step H o) (RpcProcess.init conn) es = some p' :=
    ⟨conn,es ++ [e],exec_concat _ hes hs⟩
  have htable : ∀ g ∈ p'.callmap.lookup (hashKey H name), g = some f := by
    intro g hg
    rw [lookup_step hs] at hg
    cases hlookup : p.callmap.lookup (hashKey H name) with
    | some g' =>
        rw [hlookup] at hg
        exact h.table g (hlookup ▸ hg)
    | none =>
        rw [hlookup] at hg
        cases e with
        | reghandler n g' =>
            by_cases hk : hashKey H n = hashKey H name
            · obtain rfl : g' = g := by simpa [registration,hk] using hg
              exact hregistered n g' rfl hk
            · simp [registration,hk] at hg
        | setConnection _ | call _ _ _ | run _ | expire _ | receive _ _ => cases hg
  cases step_traffic hs with
  | quiet writes received lookups ran kept =>
      refine ⟨hrun,htable,?_,?_⟩
      · rw [received,ran]
        exact h.ran
      · rw [writes,ran]
        exact h.replies
  | request t c k mem pc =>
      refine ⟨hrun,htable,h.ran,?_⟩
      intro w hw htype hkey
      rcases List.mem_append.mp hw with hw | hw
      · exact h.replies w hw htype hkey
      · obtain rfl := List.mem_singleton.mp hw
        have hbuilt := made_request (run_made hes c (List.mem_of_getElem? mem)) (Or.inl pc)
        have hrequest : HasType c.msg .request := built_type hbuilt rfl
        exact absurd htype (types_apart hrequest (by decide))
  | arrival k msg d done =>
      have hframe : [(k,msg)] = (frame e).toList := List.append_cancel_left (step_received hs)
      have he : e = .receive k msg := by
        cases e with
        | receive _ _ =>
            cases hframe
            rfl
        | reghandler _ _ | setConnection _ | call _ _ _ | run _ | expire _ => cases hframe
      obtain ⟨hran,hreplies⟩ := h.delivered (hready k msg he) done
      exact ⟨hrun,htable,hran,hreplies⟩

end Steps

/-! ### The server's own name -/

section Server
variable {ε : Type} {H : Bytes → ℕ} {abi : Abi} {s t : Host Server}

/-- No thread registers a handler under the key of `"hello"`. -/
def Untaken (H : Bytes → ℕ) : Hosts.Event ε → Prop
  | .thread (.reghandler name _) => hashKey H name ≠ hashKey H helloName
  | .thread (.setConnection _) | .thread (.call _ _ _) | .thread (.run _) | .thread (.expire _)
  | .thread (.receive _ _) | .own _ | .io _ _ | .runRead _ _ => True

instance (H : Bytes → ℕ) : ∀ e : Hosts.Event ε, Decidable (Untaken H e)
  | .thread (.reghandler name _) => inferInstanceAs (Decidable (hashKey H name ≠ _))
  | .thread (.setConnection _) | .thread (.call _ _ _) | .thread (.run _) | .thread (.expire _)
  | .thread (.receive _ _) | .own _ | .io _ _ | .runRead _ _ => inferInstanceAs (Decidable True)

/-- The handler of `"hello"` is bound once the server has been started. -/
structure Greets (H : Bytes → ℕ) (o : ByteOrder) (s : Host Server) : Prop where
  serves : Serves H o helloName helloClient s.process
  ready : s.front.started = true → bound s.process.callmap (hashKey H helloName) = some helloClient

/-- Nothing happens before `Start`. -/
theorem start_first {e : Hosts.Event ServerState.Event}
    (hs : Hosts.step tcpServer H abi s e = some t) (hbefore : s.front.started = false)
    (hafter : t.front.started = true) : e = .own .start := by
  have hidle : ¬ s.front.Running := by
    intro hrunning
    rw [hrunning.1] at hbefore
    cases hbefore
  cases e with
  | own e =>
      obtain ⟨_,p,v,_,hv,_⟩ := own_eq_some.mp hs
      have hstep := step_of_serverStep hv
      cases e with
      | start => rfl
      | connection _ _ => cases hv
      | acceptDone i error => exact absurd (step_acceptDone.mp hstep).2.1 hidle
      | runAccept i ip port =>
          obtain ⟨_,_,hrunning,_⟩ := step_runAccept.mp hstep
          exact absurd hrunning hidle
      | stop => exact absurd (step_stop.mp hstep).1 hidle
  | thread pe =>
      obtain ⟨_,p,conns,_,_,rfl⟩ := thread_eq_some.mp hs
      exact absurd hafter (Bool.eq_false_iff.mp hbefore)
  | io c e =>
      have hrunning := (io_eq_some.mp hs).1.1
      exact absurd (of_decide_eq_true hrunning) hidle
  | runRead c i =>
      have hrunning := (runRead_cases hs).1.1
      exact absurd (of_decide_eq_true hrunning) hidle

theorem bound_step {p p' : Process ℕ} {e : RpcProcess.Event ℕ} {o : ByteOrder} {k : ℕ}
    {f : Bytes → Bytes} (hs : RpcProcess.step H o p e = some p')
    (hbound : bound p.callmap k = some f) : bound p'.callmap k = some f := by
  rw [bound_eq_some] at hbound ⊢
  rw [lookup_step hs,hbound]
  rfl

theorem Greets.step {e : Hosts.Event ServerState.Event} (h : Greets H abi.order s)
    (huntaken : Untaken H e) (hs : Hosts.step tcpServer H abi s e = some t) :
    Greets H abi.order t := by
  have hserves : Serves H abi.order helloName helloClient t.process := by
    rcases process_step hs with hsame | ⟨pe,hdrives,hstep⟩
    · rw [hsame]
      exact h.serves
    · refine h.serves.step ?_ ?_ hstep
      · rintro n g rfl hk
        cases hdrives with
        | own e _ _ registers =>
            cases e with
            | start =>
                cases registers
                rfl
            | acceptDone _ _ | runAccept _ _ _ | connection _ _ | stop => cases registers
        | thread _ _ => exact absurd hk huntaken
      · rintro k msg rfl
        cases hdrives with
        | thread _ lives => exact lives.elim
        | runRead _ i _ running _ => exact h.ready (of_decide_eq_true running).1
  refine ⟨hserves,fun hafter => ?_⟩
  cases hbefore : s.front.started with
  | true =>
      rcases process_step hs with hsame | ⟨pe,_,hstep⟩
      · rw [hsame]
        exact h.ready hbefore
      · exact bound_step hstep (h.ready hbefore)
  | false =>
      obtain rfl := start_first hs hbefore hafter
      obtain ⟨_,p,v,hp,_,rfl⟩ := own_eq_some.mp hs
      have hstep : RpcProcess.step H abi.order s.process
          (.reghandler helloName (some helloClient)) = some p := hp
      rw [bound_eq_some]
      have hlookup : p.callmap.lookup (hashKey H helloName) =
          (s.process.callmap.lookup (hashKey H helloName) <|> some (some helloClient)) := by
        rw [lookup_step hstep]
        simp [registration]
      rw [hlookup]
      cases hold : s.process.callmap.lookup (hashKey H helloName) with
      | none => rfl
      | some g =>
          obtain rfl := h.serves.table g hold
          rfl

theorem run_greets {es : List (Hosts.Event ServerState.Event)}
    (hrun : exec (Hosts.step tcpServer H abi) {front := {}} es = some s)
    (huntaken : ∀ e ∈ es, Untaken H e) : Greets H abi.order s :=
  exec_invariant _ (fun _ _ _ he hu hs => hu.step he hs) huntaken
    ⟨Serves.init none,fun h => absurd h Bool.false_ne_true⟩ hrun

end Server

/-- A server at which nothing else is registered for `"hello"` has run its own
handler on every request and notice with this key that it dispatched, and every
response with this key says `"hello client"`. -/
theorem hello_served (H : Bytes → ℕ) (abi : Abi) (es : List (Hosts.Event ServerState.Event))
    (s : Host Server) (hrun : exec (step tcpServer H abi) {front := {}} es = some s)
    (huntaken : ∀ e ∈ es, Untaken H e) :
    (∀ r ∈ s.process.received, Asks r.2 → r.2.getHash = hashKey H helloName →
      ∃ req, r.2.dataString = some req ∧ (helloClient,req) ∈ s.process.ran) ∧
    ∀ w ∈ s.process.writes, HasType w.2 .response → w.2.getHash = hashKey H helloName →
      w.2.dataString = some (helloClient []) := by
  have hgreets := run_greets hrun huntaken
  refine ⟨hgreets.serves.ran,?_⟩
  intro w hw htype hkey
  obtain ⟨req,hdata,_⟩ := hgreets.serves.replies w hw htype hkey
  exact hdata

/-- A server reads a request for `"hello"` while another handler waits to be
registered. -/
def helloServer : List (Hosts.Event ServerState.Event) :=
  [.own .start,.own (.acceptDone 0 0),.own (.runAccept 0 (some "a") (some 1)),
    .thread (.reghandler [1] (some id)),.io 0 (.receive (shortRequest.frame (lp64 .little))),
    .io 0 (.readReady 0),.runRead 0 0,.io 0 (.readReady 0),.runRead 0 0]

theorem hello_served_request :
    ∃ s ∈ exec (step tcpServer List.length (lp64 .little)) {front := {}} helloServer,
      s.process.received.length = 1 ∧ s.process.writes.length = 1 ∧
      (∀ r ∈ s.process.received, Asks r.2 → r.2.getHash = hashKey List.length helloName →
        ∃ req, r.2.dataString = some req ∧ (helloClient,req) ∈ s.process.ran) ∧
      ∀ w ∈ s.process.writes, HasType w.2 .response →
        w.2.getHash = hashKey List.length helloName → w.2.dataString = some (helloClient []) := by
  have hrun : ∃ s ∈ exec (step tcpServer List.length (lp64 .little)) {front := {}} helloServer,
      s.process.received.length = 1 ∧ s.process.writes.length = 1 := by decide
  obtain ⟨s,hs,hreceived,hwrites⟩ := hrun
  exact ⟨s,hs,hreceived,hwrites,hello_served _ _ _ s hs (by decide)⟩

end SindiaRpc.ServedNames
