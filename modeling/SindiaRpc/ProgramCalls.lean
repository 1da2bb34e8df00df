import SindiaRpc.HostNetwork
import SindiaRpc.NetworkSafety
import SindiaRpc.ServedNames

/-!
# What calls return between servers and clients

The connections of a process lead to processes that read what it writes. Below
`2 ^ 32` calls, and with no two calls between the two readings of the counter at
once, a call that returns `RPCOK` has what the process at the other end of one of
these connections computed from its argument. Where that process is a server and
the call is for `"hello"`, this is `"hello client"`.
-/
namespace SindiaRpc.ProgramCalls
open MessageFrames DispatcherTable RpcChannel RpcProcess CallCorrelation ConnectionState ServerState
  ClientState ProcessWrites NodeState NodeHistories NetworkState NetworkDelivery NetworkSafety
  MessageNetwork Hosts ServerHost ClientHost HostNetwork ServedNames GuardedRuns

section Counters
variable {σ ε : Type} {F : Front σ ε} {H : Bytes → ℕ} {abi : Abi} {s t : Host σ}

/-- No call of the host increments the counter while another is between its own
increment and its second reading. -/
def Calm (s : Host σ) : Hosts.Event ε → Prop
  | .thread e => CallCorrelation.Calm s.process e
  | .own _ | .io _ _ | .runRead _ _ => True

instance (s : Host σ) : ∀ e : Hosts.Event ε, Decidable (Calm s e)
  | .thread e => inferInstanceAs (Decidable (CallCorrelation.Calm s.process e))
  | .own _ | .io _ _ | .runRead _ _ => inferInstanceAs (Decidable True)

theorem host_correlation {es : List (Hosts.Event ε)} (hinit : s.process = init none)
    (hrun : exec (Hosts.step F H abi) s es = some t)
    (hcalm : AllSteps (Hosts.step F H abi) Calm s es) (hlen : t.process.calls.length < 2 ^ 32) :
    Correlation t.process := by
  have hall : AllStates (Hosts.step F H abi)
      (fun s => s.process.calls.length < 2 ^ 32 → Correlation s.process) s es := by
    apply allStates_of_allSteps ?_ (fun _ => hinit ▸ Correlation.init none) hcalm
    intro s e t hs hcalm hstep hlen
    rcases process_step hstep with hsame | ⟨pe,hdrives,hp⟩
    · rw [hsame] at hlen ⊢
      exact hs hlen
    · have hpe : CallCorrelation.Calm s.process pe := by
        cases hdrives with
        | own _ _ _ _ | runRead _ _ _ _ _ => trivial
        | thread _ _ => exact hcalm
      have hle := calls_length_step hp
      exact (hs (by omega)).step hlen hpe hp
  exact hall.last hrun hlen

end Counters

/-- Whatever has arrived at the connections of `a` has come from connections that
lead back to them. -/
def Paired {σ ε : Type} {ι : Type*} (F : Front σ ε) (peer : Peers ι) (hosts : ι → Host σ)
    (a : ι) : Prop :=
  ∀ k, HostNetwork.received F (hosts a) k ≠ [] →
    ∃ l, peer a k = some l ∧ peer l.1 l.2 = some (a,k)

section Programs
variable {ι : Type} {H : Bytes → ℕ} {o : ByteOrder} {peer : Peers ι} {a : ι}

theorem Paired.bothWays {σ ε : Type} {F : Front σ ε} {Inv : σ → ℕ → Prop} {hosts : ι → Host σ}
    {net : ι → Node} {mail : ι → Endpoint} (h : Paired F peer hosts a)
    (hagree : Agree F Inv hosts net) (hmail : Refines H o peer net mail) :
    BothWays o peer net a := by
  intro k c hc hne
  have harrived : HostNetwork.received F (hosts a) k ≠ [] := by
    rwa [← (matches_streams (hagree a) k).1,received_eq hc]
  obtain ⟨l,hpeer,hback⟩ := h k harrived
  obtain ⟨d,hd⟩ := far_end hmail.linked hpeer hc hne
  exact ⟨l,d,hpeer,hd,hmail.reads hpeer hc hd,hmail.reads hback hd hc⟩

variable [DecidableEq ι] {serves : ι → Bool} {t : ℕ} {c : Invocation}
  {es : List (ι × Hosts.Event (ServerState.Event ⊕ ClientState.Event))}
  {hosts : ι → Host (Server ⊕ Client)}

/-- What a call returns is the body of a response to its request. -/
theorem calls_returned
    (hrun : exec (HostNetwork.step program H (lp64 o) peer) (HostNetwork.start serves) es =
      some hosts)
    (horderly : AllSteps (HostNetwork.step program H (lp64 o) peer)
      (Orderly program ProgramSettled H (lp64 o)) (HostNetwork.start serves) es)
    (hpaired : Paired program peer hosts a) (hlen : (hosts a).process.calls.length < 2 ^ 32)
    (hcalm : AllSteps (HostNetwork.step program H (lp64 o) peer)
      (fun hosts e => e.1 = a → Calm (hosts a) e.2) (HostNetwork.start serves) es)
    (hc : (hosts a).process.calls[t]? = some c) (hpc : c.pc = .returned .rpcOk) :
    ∃ k request l reply, (k,request) ∈ (hosts a).process.writes ∧
      Requested H o (hosts a).process t request ∧ peer a k = some l ∧
      (l.2,reply) ∈ (hosts l.1).process.writes ∧ HasType reply .response ∧
      Answers (hosts l.1).process l.2 request reply ∧ reply.dataString = some c.res := by
  obtain ⟨net,fs,mail,_,hmail,hagree⟩ := programs_simulated hrun horderly
  have hprocess : ∀ b, (net b).process = (hosts b).process := fun b => (hagree b).process
  have hcor : Correlation (hosts a).process :=
    host_correlation rfl (Interleavings.exec_member hrun a)
      (Interleavings.allSteps_member hcalm hrun) hlen
  rw [← hprocess] at hc hcor ⊢
  obtain ⟨k,request,l,reply,hreturned⟩ :=
    (hpaired.bothWays hagree hmail).returned hmail.composed hcor hc hpc
  rw [hprocess l.1] at hreturned
  exact ⟨k,request,l,reply,hreturned⟩

theorem untaken_map {ε δ : Type} {j : ε → δ} {e : Hosts.Event ε}
    (h : Untaken H (mapEvent j e)) : Untaken H e := by
  cases e with
  | thread pe =>
      cases pe with
      | reghandler _ _ => exact h
      | setConnection _ | call _ _ _ | run _ | expire _ | receive _ _ => trivial
  | own _ | io _ _ | runRead _ _ => trivial

/-- A server of the network answers calls of `"hello"` as it does alone. -/
theorem server_greets {b : ι}
    (hrun : exec (HostNetwork.step program H (lp64 o) peer) (HostNetwork.start serves) es =
      some hosts) (hserves : serves b = true)
    (huntaken : ∀ e ∈ es, serves e.1 = true → Untaken H e.2) :
    Serves H o helloName helloClient (hosts b).process := by
  have hown := Interleavings.exec_member hrun b
  have hstart : HostNetwork.start serves b = mapHost .inl {front := {}} := by
    rw [HostNetwork.start,hserves]
    rfl
  rw [hstart] at hown
  obtain ⟨fs,s,hfs,hs,hserver⟩ := left_embeds.host_run hown
  have hquiet : ∀ e ∈ fs, Untaken H e := by
    intro e he
    have hmem : mapEvent .inl e ∈ Interleavings.eventsOf b es := by
      rw [hfs]
      exact List.mem_map_of_mem he
    exact untaken_map (huntaken _ (Interleavings.mem_eventsOf.mp hmem) hserves)
  rw [hs]
  exact (run_greets hserver hquiet).serves

end Programs

/-- A call between servers and clients that returns `RPCOK` has what the process at
the other end of one of the connections computed from its argument with the
handler that was bound when it dispatched the request, or nothing if none was. -/
theorem calls_computed {ι : Type} [DecidableEq ι] (H : Bytes → ℕ) (o : ByteOrder)
    (peer : Peers ι) (serves : ι → Bool)
    (es : List (ι × Hosts.Event (ServerState.Event ⊕ ClientState.Event)))
    (hosts : ι → Host (Server ⊕ Client)) (a : ι) (t : ℕ) (c : Invocation)
    (hrun : exec (HostNetwork.step program H (lp64 o) peer) (HostNetwork.start serves) es =
      some hosts)
    (horderly : AllSteps (HostNetwork.step program H (lp64 o) peer)
      (Orderly program ProgramSettled H (lp64 o)) (HostNetwork.start serves) es)
    (hpaired : Paired program peer hosts a) (hlen : (hosts a).process.calls.length < 2 ^ 32)
    (hcalm : AllSteps (HostNetwork.step program H (lp64 o) peer)
      (fun hosts e => e.1 = a → Calm (hosts a) e.2) (HostNetwork.start serves) es)
    (hc : (hosts a).process.calls[t]? = some c) (hpc : c.pc = .returned .rpcOk) :
    ∃ k request l, (k,request) ∈ (hosts a).process.writes ∧
      Requested H o (hosts a).process t request ∧ peer a k = some l ∧
      Computed H (hosts l.1).process l.2 request c.name c.req c.res := by
  obtain ⟨k,request,l,_,hwritten,hrequested,hpeer,_,_,hanswers,hbody⟩ :=
    calls_returned hrun horderly hpaired hlen hcalm hc hpc
  exact ⟨k,request,l,hwritten,hrequested,hpeer,computed_of_answers hrequested hc hanswers hbody⟩

set_option maxRecDepth 20000 in
theorem helloRun_calm : AllSteps
    (HostNetwork.step program (fun _ => 5) (lp64 .little) NetworkDelivery.pair)
    (fun hosts e => e.1 = false → Calm (hosts false) e.2) (HostNetwork.start id) helloRun := by
  decide +kernel

/-- One connection on either side. -/
theorem paired_pair {hosts : Bool → Host (Server ⊕ Client)} {a : Bool}
    (hlen : (program.conns (hosts a).front).length = 1) :
    Paired program NetworkDelivery.pair hosts a := by
  intro k hne
  by_cases hk : k = 0
  · subst hk
    refine ⟨(!a,0),rfl,?_⟩
    cases a <;> rfl
  · refine absurd ?_ hne
    have hnone : (program.conns (hosts a).front)[k]? = none := List.getElem?_eq_none (by omega)
    unfold HostNetwork.received
    split_ifs
    · rw [hnone]
      rfl
    · rfl

set_option maxRecDepth 20000 in
theorem helloRun_returns :
    ∃ hosts ∈ exec (HostNetwork.step program (fun _ => 5) (lp64 .little) NetworkDelivery.pair)
        (HostNetwork.start id) helloRun,
      (program.conns (hosts false).front).length = 1 ∧
        (hosts false).process.calls.length < 2 ^ 32 ∧
        ∃ c ∈ (hosts false).process.calls[0]?, c.pc = .returned .rpcOk ∧ c.req = [7] ∧
          hashKey (fun _ => 5) c.name = hashKey (fun _ => 5) helloName := by
  decide +kernel

theorem calls_computed_hello :
    ∃ hosts ∈ exec (HostNetwork.step program (fun _ => 5) (lp64 .little) NetworkDelivery.pair)
        (HostNetwork.start id) helloRun,
      ∃ c ∈ (hosts false).process.calls[0]?, c.req = [7] ∧ ∃ k request l,
        (k,request) ∈ (hosts false).process.writes ∧
        Requested (fun _ => 5) .little (hosts false).process 0 request ∧
        NetworkDelivery.pair false k = some l ∧
        Computed (fun _ => 5) (hosts l.1).process l.2 request c.name c.req c.res := by
  obtain ⟨hosts,hhosts,hone,hlen,c,hc,hpc,hreq,_⟩ := helloRun_returns
  exact ⟨hosts,hhosts,c,hc,hreq,calls_computed _ _ _ _ _ hosts false 0 c hhosts helloRun_orderly
    (paired_pair hone) hlen helloRun_calm hc hpc⟩

/-- A call of `"hello"` to servers that returns `RPCOK` has `"hello client"`. -/
theorem hello_returns {ι : Type} [DecidableEq ι] (H : Bytes → ℕ) (o : ByteOrder)
    (peer : Peers ι) (serves : ι → Bool)
    (es : List (ι × Hosts.Event (ServerState.Event ⊕ ClientState.Event)))
    (hosts : ι → Host (Server ⊕ Client)) (a : ι) (t : ℕ) (c : Invocation)
    (hrun : exec (HostNetwork.step program H (lp64 o) peer) (HostNetwork.start serves) es =
      some hosts)
    (horderly : AllSteps (HostNetwork.step program H (lp64 o) peer)
      (Orderly program ProgramSettled H (lp64 o)) (HostNetwork.start serves) es)
    (hpaired : Paired program peer hosts a) (hlen : (hosts a).process.calls.length < 2 ^ 32)
    (hcalm : AllSteps (HostNetwork.step program H (lp64 o) peer)
      (fun hosts e => e.1 = a → Calm (hosts a) e.2) (HostNetwork.start serves) es)
    (hservers : ∀ k l, peer a k = some l → serves l.1 = true)
    (huntaken : ∀ e ∈ es, serves e.1 = true → Untaken H e.2)
    (hc : (hosts a).process.calls[t]? = some c) (hpc : c.pc = .returned .rpcOk)
    (hname : hashKey H c.name = hashKey H helloName) : c.res = helloClient [] := by
  obtain ⟨k,request,l,reply,_,hrequested,hpeer,hreply,htype,hanswers,hbody⟩ :=
    calls_returned hrun horderly hpaired hlen hcalm hc hpc
  have hserver := server_greets hrun (hservers k l hpeer) huntaken
  have hkey : reply.getHash = hashKey H helloName := by
    rw [← hname,← (requested_fields hrequested hc).1]
    exact congrArg UInt32.toNat hanswers.hash
  obtain ⟨req,hdata,_⟩ := hserver.replies _ hreply htype hkey
  exact Option.some.inj (hbody.symm.trans hdata)

theorem hello_returns_hello :
    ∃ hosts ∈ exec (HostNetwork.step program (fun _ => 5) (lp64 .little) NetworkDelivery.pair)
        (HostNetwork.start id) helloRun,
      ∃ c ∈ (hosts false).process.calls[0]?, c.req = [7] ∧ c.res = helloClient [] := by
  obtain ⟨hosts,hhosts,hone,hlen,c,hc,hpc,hreq,hname⟩ := helloRun_returns
  have hservers : ∀ k l, NetworkDelivery.pair false k = some l → id l.1 = true := by
    intro k l hl
    unfold NetworkDelivery.pair at hl
    split_ifs at hl
    cases hl
    rfl
  exact ⟨hosts,hhosts,c,hc,hreq,hello_returns _ _ _ _ _ hosts false 0 c hhosts helloRun_orderly
    (paired_pair hone) hlen helloRun_calm hservers (by decide) hc hpc hname⟩

end SindiaRpc.ProgramCalls
