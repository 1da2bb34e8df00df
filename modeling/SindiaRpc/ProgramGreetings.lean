import SindiaRpc.ProgramCalls

/-!
# What the two programs do

`HandleConnection` greets the server on every object it starts: a notice for
`"hello"`, which the server has a handler for before it accepts. What is written
on an object stays written, so once both ends are at rest the handler has run on
the greeting.
-/
namespace SindiaRpc.ProgramGreetings
open MessageFrames DispatcherTable RpcProcess ConnectionState ConnectionHistories StreamReading
  StreamContents ServerState ClientState ProcessWrites NodeState NodeHistories NetworkState
  NetworkDelivery MessageNetwork Hosts ServerHost ClientHost HostNetwork ServedNames ProgramCalls
  GuardedRuns ListUpdates

/-! ### What has been written stays -/

/-- Connections stay, and so does what has been written on them. -/
def Grows (conns conns' : List Connection) : Prop :=
  ∀ (c : ℕ) (conn : Connection), conns[c]? = some conn →
    ∃ conn', conns'[c]? = some conn' ∧ conn.written ⊆ conn'.written

section Grows
variable {abi : Abi} {conns conns' : List Connection} {c : ℕ} {conn conn' : Connection}

theorem Grows.refl (conns : List Connection) : Grows conns conns :=
  fun _ conn hconn => ⟨conn,hconn,List.Subset.refl _⟩

theorem Grows.trans {conns'' : List Connection} (h : Grows conns conns')
    (h' : Grows conns' conns'') : Grows conns conns'' := by
  intro c conn hconn
  obtain ⟨conn₁,hconn₁,hwritten⟩ := h c conn hconn
  obtain ⟨conn₂,hconn₂,hwritten'⟩ := h' c conn₁ hconn₁
  exact ⟨conn₂,hconn₂,List.Subset.trans hwritten hwritten'⟩

theorem Grows.set (hconn : conns[c]? = some conn) (hwritten : conn.written ⊆ conn'.written) :
    Grows conns (conns.set c conn') := by
  intro d conn₁ hconn₁
  by_cases hd : c = d
  · subst hd
    obtain rfl := Option.some.inj (hconn.symm.trans hconn₁)
    exact ⟨conn',getElem?_set_of_eq_some hconn,hwritten⟩
  · exact ⟨conn₁,(List.getElem?_set_ne hd).trans hconn₁,List.Subset.refl _⟩

theorem Grows.append (conns l : List Connection) : Grows conns (conns ++ l) := by
  intro c conn hconn
  have hlt : c < conns.length := (List.getElem?_eq_some_iff.mp hconn).choose
  exact ⟨conn,(List.getElem?_append_left hlt).trans hconn,List.Subset.refl _⟩

theorem written_write {msg : Message} (h : conn.write abi msg = some conn') :
    conn'.written = conn.written ++ [msg] :=
  congrArg Histories.written (histories_write h)

theorem written_step {e : ConnectionState.Event} (h : ConnectionState.step abi conn e = some conn') :
    conn.written ⊆ conn'.written := by
  have hwritten : conn'.written = conn.written ++ (writing conn e).toList :=
    congrArg Histories.written (step_histories h)
  rw [hwritten]
  exact List.subset_append_left _ _

theorem Grows.post {ws : List (ℕ × Message)} (h : NodeState.post abi ws conns = some conns') :
    Grows conns conns' := by
  induction ws generalizing conns with
  | nil =>
      cases h
      exact .refl _
  | cons w ws ih =>
      simp only [NodeState.post,Option.bind_eq_bind,Option.bind_eq_some_iff] at h
      obtain ⟨conn,hconn,conn',hwrite,hrest⟩ := h
      refine Grows.trans (.set hconn ?_) (ih hrest)
      rw [written_write hwrite]
      exact List.subset_append_left _ _

end Grows

/-! ### The client's greeting -/

/-- The greeting has been written on every object that was started. -/
def Spoke (H : Bytes → ℕ) (o : ByteOrder) (u : Client) : Prop :=
  ∀ c ∈ u.greeted, ∃ conn msg, u.conns[c]? = some conn ∧ hello H o = some msg ∧
    msg ∈ conn.written

section Client
variable {H : Bytes → ℕ} {abi : Abi} {o : ByteOrder} {u v : Client} {s t : Host Client}
  {error : ErrorCode} {ip : Option String} {port : Option ℕ}

theorem Spoke.grows (h : Spoke H o u) (hgreeted : v.greeted = u.greeted)
    (hgrows : Grows u.conns v.conns) : Spoke H o v := by
  intro c hc
  rw [hgreeted] at hc
  obtain ⟨conn,msg,hconn,hmsg,hmem⟩ := h c hc
  obtain ⟨conn',hconn',hwritten⟩ := hgrows c conn hconn
  exact ⟨conn',msg,hconn',hmsg,hwritten hmem⟩

theorem start_written {conn conn' : Connection} (h : conn.start ip port = some conn') :
    conn'.written = conn.written := by
  unfold Connection.start at h
  split_ifs at h
  · cases h
    rfl
  · split at h
    · cases h
    · split at h
      · cases h
      · cases h
        rfl

/-- `HandleConnection` leaves the objects alone, or starts one and greets on it. -/
theorem handleConnection_says (h : Client.handleConnection abi H error ip port u = some v) :
    v.greeted = u.greeted ∧ v.conns = u.conns ∨ ∃ k conn conn' msg,
      u.conns[k]? = some conn ∧ hello H abi.order = some msg ∧
      conn'.written = conn.written ++ [msg] ∧ v.conns = u.conns.set k conn' ∧
      v.greeted = u.greeted ++ [k] := by
  simp only [Client.handleConnection,Option.bind_eq_bind,Option.bind_eq_some_iff] at h
  obtain ⟨k,_,conn,hconn,h⟩ := h
  split_ifs at h
  · cases h
    exact Or.inl ⟨rfl,rfl⟩
  · simp only [Option.bind_eq_some_iff,Option.some.injEq] at h
    obtain ⟨conn₁,hstart,msg,hmsg,conn',hwrite,rfl⟩ := h
    refine Or.inr ⟨k,conn,conn',msg,hconn,hmsg,?_,rfl,rfl⟩
    rw [written_write hwrite,start_written hstart]
  · cases h
    exact Or.inl ⟨(ClientConnections.checkConnect_frame u).2.2.2.1,checkConnect_conns u⟩

theorem Spoke.handle (h : Spoke H abi.order u)
    (hs : Client.handleConnection abi H error ip port u = some v) : Spoke H abi.order v := by
  rcases handleConnection_says hs with ⟨hgreeted,hconns⟩ |
    ⟨k,conn,conn',msg,hconn,hmsg,hwritten,hconns,hgreeted⟩
  · refine h.grows hgreeted ?_
    rw [hconns]
    exact .refl _
  · have hgrows : Grows u.conns v.conns := by
      rw [hconns]
      refine .set hconn ?_
      rw [hwritten]
      exact List.subset_append_left _ _
    intro c hc
    rw [hgreeted] at hc
    rcases List.mem_append.mp hc with hc | hc
    · obtain ⟨conn₁,msg₁,hconn₁,hmsg₁,hmem⟩ := h c hc
      obtain ⟨conn₂,hconn₂,hsub⟩ := hgrows c conn₁ hconn₁
      exact ⟨conn₂,msg₁,hconn₂,hmsg₁,hsub hmem⟩
    · obtain rfl := List.mem_singleton.mp hc
      refine ⟨conn',msg,?_,hmsg,?_⟩
      · rw [hconns]
        exact getElem?_set_of_eq_some hconn
      · rw [hwritten]
        exact List.mem_append_right _ (List.mem_singleton_self msg)

theorem Spoke.advance {c : ℕ} {e : ConnectionState.Event} (h : Spoke H o u)
    (hs : Hosts.advance tcpClient abi c e u = some v) : Spoke H o v := by
  simp only [Hosts.advance,Option.bind_eq_bind,Option.bind_eq_some_iff,Option.some.injEq] at hs
  obtain ⟨conn,hconn,conn',hstep,rfl⟩ := hs
  have hmoved : Spoke H o {u with conns := u.conns.set c conn'} :=
    h.grows rfl (.set hconn (written_step hstep))
  split_ifs
  · refine hmoved.grows (ClientConnections.checkConnect_frame _).2.2.2.1 ?_
    rw [show (tcpClient.closeConn c _).conns = _ from checkConnect_conns _]
    exact .refl _
  · exact hmoved

theorem Spoke.own {e : ClientState.Event} (h : Spoke H abi.order u)
    (hs : clientStep H abi u e = some v) : Spoke H abi.order v := by
  have hstep := step_of_clientStep hs
  cases e with
  | connection c e => cases hs
  | start opened =>
      obtain ⟨_,rfl⟩ := step_start.mp hstep
      exact h.grows rfl (.append _ _)
  | test n =>
      obtain ⟨_,rfl⟩ := step_test.mp hstep
      exact h
  | retry n opened =>
      obtain ⟨_,rfl⟩ := step_retry.mp hstep
      exact h.grows rfl (.append _ _)
  | connectDone i error =>
      obtain ⟨a,_,_,_,rfl⟩ := step_connectDone.mp hstep
      exact h
  | handle i ip port =>
      obtain ⟨a,error,_,_,hrun⟩ := step_handle.mp hstep
      have hsame : Spoke H abi.order {u with attempts := u.attempts.eraseIdx i} := h
      exact hsame.handle hrun

theorem Spoke.step {e : Hosts.Event ClientState.Event} (h : Spoke H abi.order s.front)
    (hs : Hosts.step tcpClient H abi s e = some t) : Spoke H abi.order t.front := by
  cases e with
  | own e =>
      obtain ⟨_,p,v,_,hv,rfl⟩ := own_eq_some.mp hs
      exact h.own hv
  | thread pe =>
      obtain ⟨_,p,conns,_,hpost,rfl⟩ := thread_eq_some.mp hs
      exact h.grows rfl (.post hpost)
  | io c e =>
      obtain ⟨_,v,hv,rfl⟩ := io_eq_some.mp hs
      exact h.advance hv
  | runRead c i =>
      obtain ⟨_,_,_,⟨_,v,hv,rfl⟩ | ⟨_,p,v,_,_,hv,rfl⟩⟩ := runRead_cases hs
      · exact h.advance hv
      · exact h.advance hv

theorem run_spoke {es : List (Hosts.Event ClientState.Event)}
    (hrun : exec (Hosts.step tcpClient H abi) {front := {}} es = some s) :
    Spoke H abi.order s.front := by
  apply exec_preserves (Hosts.step tcpClient H abi) (P := fun s => Spoke H abi.order s.front)
    (fun _ _ _ h hs => h.step hs) ?_ hrun
  intro c hc
  cases hc

end Client

/-! ### The two programs -/

theorem client_spoke {ι : Type} [DecidableEq ι] {H : Bytes → ℕ} {o : ByteOrder} {peer : Peers ι}
    {serves : ι → Bool} {es : List (ι × Hosts.Event (ServerState.Event ⊕ ClientState.Event))}
    {hosts : ι → Host (Server ⊕ Client)} {a : ι} {k : ℕ} {c : Connection}
    (hrun : exec (HostNetwork.step program H (lp64 o) peer) (HostNetwork.start serves) es =
      some hosts) (ha : serves a = false) (hstarted : program.started (hosts a).front k = true)
    (hc : (program.conns (hosts a).front)[k]? = some c) :
    ∃ msg, hello H o = some msg ∧ msg ∈ c.written := by
  have hown := Interleavings.exec_member hrun a
  have hstart : HostNetwork.start serves a = mapHost .inr {front := {}} := by
    rw [HostNetwork.start,ha]
    rfl
  rw [hstart] at hown
  obtain ⟨fs,s,_,hs,hclient⟩ := right_embeds.host_run hown
  rw [hs] at hstarted hc
  obtain ⟨conn,msg,hconn,hmsg,hmem⟩ := run_spoke hclient k (of_decide_eq_true hstarted)
  obtain rfl := Option.some.inj (hc.symm.trans hconn)
  exact ⟨msg,hmsg,hmem⟩

/-- Where a client's connection and the server's end of it have come to rest, the
server has run its handler on the greeting. -/
theorem greetings_handled {ι : Type} [DecidableEq ι] (H : Bytes → ℕ) (o : ByteOrder)
    (peer : Peers ι) (serves : ι → Bool)
    (es : List (ι × Hosts.Event (ServerState.Event ⊕ ClientState.Event)))
    (hosts : ι → Host (Server ⊕ Client)) (a b : ι) (k j : ℕ) (c d : Connection)
    (hrun : exec (HostNetwork.step program H (lp64 o) peer) (HostNetwork.start serves) es =
      some hosts)
    (horderly : AllSteps (HostNetwork.step program H (lp64 o) peer)
      (Orderly program ProgramSettled H (lp64 o)) (HostNetwork.start serves) es)
    (huntaken : ∀ e ∈ es, serves e.1 = true → Untaken H e.2)
    (ha : serves a = false) (hb : serves b = true) (hpeer : peer b j = some (a,k))
    (hactiveA : program.started (hosts a).front k = true)
    (hactiveB : program.started (hosts b).front j = true)
    (hc : (program.conns (hosts a).front)[k]? = some c)
    (hd : (program.conns (hosts b).front)[j]? = some d)
    (hrestA : Resting c) (hrestB : Resting d) (harrived : d.received = c.wire) :
    (helloClient,greeting) ∈ (hosts b).process.ran := by
  obtain ⟨net,fs,mail,_,hmail,hagree⟩ := programs_simulated hrun horderly
  have hnodeA := (hagree a).at_node hactiveA hc
  have hnodeB := (hagree b).at_node hactiveB hd
  have hall := (hmail.reads hpeer hnodeB hnodeA).all hrestB hrestA harrived
  obtain ⟨msg,hmsg,hwritten⟩ := client_spoke hrun ha hactiveA hc
  obtain ⟨m,hm,hcontent⟩ : ∃ m ∈ d.dispatched, content m = content msg := by
    have hmem : content msg ∈ c.written.map content := List.mem_map_of_mem hwritten
    rw [← hall] at hmem
    exact List.mem_map.mp hmem
  rw [(hmail.composed b).dispatched j d hnodeB,(hagree b).process] at hm
  obtain ⟨hcoherent,hheader⟩ := Message.build_spec hmsg
  have hasks : Asks m := Or.inr ((type_of_content hcontent).mpr (hello_type hmsg))
  have hkey : m.getHash = hashKey H helloName := by
    rw [show m.getHash = msg.getHash from congrArg Content.hash hcontent,Message.getHash,hheader]
    rfl
  obtain ⟨req,hreq,hran⟩ := (server_greets hrun hb huntaken).ran (j,m) (mem_on.mp hm) hasks hkey
  have hbody : m.dataString = some greeting :=
    (body_of_content hcontent).trans hcoherent.toCarries.dataString
  obtain rfl := Option.some.inj (hreq.symm.trans hbody)
  exact hran

set_option maxRecDepth 20000 in
theorem helloRun_rests :
    ∃ hosts ∈ exec (HostNetwork.step program (fun _ => 5) (lp64 .little) NetworkDelivery.pair)
        (HostNetwork.start id) helloRun,
      program.started (hosts false).front 0 = true ∧ program.started (hosts true).front 0 = true ∧
        ∃ c ∈ (program.conns (hosts false).front)[0]?, ∃ d ∈ (program.conns (hosts true).front)[0]?,
          Resting c ∧ Resting d ∧ d.received = c.wire := by
  decide +kernel

theorem greetings_handled_hello :
    ∃ hosts ∈ exec (HostNetwork.step program (fun _ => 5) (lp64 .little) NetworkDelivery.pair)
        (HostNetwork.start id) helloRun, (helloClient,greeting) ∈ (hosts true).process.ran := by
  obtain ⟨hosts,hhosts,hactiveA,hactiveB,c,hc,d,hd,hrestA,hrestB,harrived⟩ := helloRun_rests
  exact ⟨hosts,hhosts,greetings_handled _ _ _ _ _ hosts false true 0 0 c d hhosts helloRun_orderly
    (by decide) rfl rfl rfl hactiveA hactiveB hc hd hrestA hrestB harrived⟩

end SindiaRpc.ProgramGreetings
