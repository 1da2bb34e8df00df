import SindiaRpc.ServerHost
import SindiaRpc.ClientHost
import SindiaRpc.MessageNetwork

/-!
# Servers and clients connected by streams

Every process of the network is a server or a client, with its accept loop or its
reconnects. The streams are those of a network of nodes, and so is everything that
is read and written: a run of servers and clients is matched by a run of nodes, and
where nothing is written on top of something unsent, by a run of processes that
exchange messages in turn.
-/
namespace SindiaRpc.HostNetwork
open MessageFrames DispatcherTable RpcProcess ConnectionState ConnectionHistories ServerState
  ClientState ProcessWrites NodeState NetworkState MessageNetwork Hosts ServerHost ClientHost
  OrderedMail GuardedRuns

/-! ### One front or another -/

section Either
variable {σ ε τ δ : Type} (F : Front σ ε) (G : Front τ δ)

def either : Front (σ ⊕ τ) (ε ⊕ δ) where
  conns := Sum.elim F.conns G.conns
  started := Sum.elim F.started G.started
  held := Sum.elim F.held G.held
  alive := Sum.elim F.alive G.alive
  running := Sum.elim F.running G.running
  replace
    | .inl u, conns => .inl (F.replace u conns)
    | .inr u, conns => .inr (G.replace u conns)
  closeConn c
    | .inl u => .inl (F.closeConn c u)
    | .inr u => .inr (G.closeConn c u)
  registers := Sum.elim F.registers G.registers
  step H abi
    | .inl u, .inl e => (F.step H abi u e).map .inl
    | .inr u, .inr e => (G.step H abi u e).map .inr
    | .inl _, .inr _ | .inr _, .inl _ => none

/-- Each kind of front is settled in its own way. -/
def EitherSettled (P : σ → σ → Prop) (Q : τ → τ → Prop) : σ ⊕ τ → σ ⊕ τ → Prop
  | .inl u, .inl v => P u v
  | .inr u, .inr v => Q u v
  | .inl _, .inr _ | .inr _, .inl _ => False

instance (P : σ → σ → Prop) (Q : τ → τ → Prop) [∀ u v, Decidable (P u v)]
    [∀ u v, Decidable (Q u v)] : ∀ u v, Decidable (EitherSettled P Q u v)
  | .inl _, .inl _ => inferInstanceAs (Decidable (P _ _))
  | .inr _, .inr _ => inferInstanceAs (Decidable (Q _ _))
  | .inl _, .inr _ | .inr _, .inl _ => inferInstanceAs (Decidable False)

variable {F G} {H : Bytes → ℕ} {abi : Abi} {P : σ → σ → Prop} {Q : τ → τ → Prop}
  {Inv : σ → ℕ → Prop} {Inv' : τ → ℕ → Prop}

theorem left_embeds : Embeds F (either F G) .inl .inl where
  conns _ := rfl
  started _ _ := rfl
  held _ _ := rfl
  alive _ := rfl
  running _ := rfl
  replace _ _ := rfl
  closeConn _ _ := rfl
  registers _ := rfl
  step _ _ _ e _ hs := by
    cases e with
    | inl e =>
        obtain ⟨w,hw,rfl⟩ := Option.map_eq_some_iff.mp hs
        exact ⟨e,w,rfl,rfl,hw⟩
    | inr e => cases hs

theorem right_embeds : Embeds G (either F G) .inr .inr where
  conns _ := rfl
  started _ _ := rfl
  held _ _ := rfl
  alive _ := rfl
  running _ := rfl
  replace _ _ := rfl
  closeConn _ _ := rfl
  registers _ := rfl
  step _ _ _ e _ hs := by
    cases e with
    | inl e => cases hs
    | inr e =>
        obtain ⟨w,hw,rfl⟩ := Option.map_eq_some_iff.mp hs
        exact ⟨e,w,rfl,rfl,hw⟩

theorem either_lawful (hF : Lawful F H abi Inv P) (hG : Lawful G H abi Inv' Q) :
    Lawful (either F G) H abi (Sum.elim Inv Inv') (EitherSettled P Q) where
  own u v k e halive hinv hset hs := by
    cases u with
    | inl u =>
        obtain ⟨f,w,rfl,rfl,hw⟩ := left_embeds.step H abi u e v hs
        exact left_embeds.outcome (fun _ _ h => h) (hF.own u w k f halive hinv hset hw)
    | inr u =>
        obtain ⟨f,w,rfl,rfl,hw⟩ := right_embeds.step H abi u e v hs
        exact right_embeds.outcome (fun _ _ h => h) (hG.own u w k f halive hinv hset hw)
  same u := by
    cases u with
    | inl u => exact congrArg Sum.inl (hF.same u)
    | inr u => exact congrArg Sum.inr (hG.same u)
  write u k c conn conn' msg hinv hc hconn hwrite := by
    cases u with
    | inl u =>
        exact left_embeds.moved (fun _ _ h => h) (hF.write u k c conn conn' msg hinv hc hconn hwrite)
    | inr u =>
        exact right_embeds.moved (fun _ _ h => h) (hG.write u k c conn conn' msg hinv hc hconn hwrite)
  advance u v k c e hrun hinv hc hset hs := by
    cases u with
    | inl u =>
        obtain ⟨w,hw,rfl⟩ := left_embeds.advance hs
        obtain ⟨conn,conn',hconn,hstep,h⟩ := hF.advance u w k c e hrun hinv hc hset hw
        exact ⟨conn,conn',hconn,hstep,left_embeds.moved (fun _ _ h => h) h⟩
    | inr u =>
        obtain ⟨w,hw,rfl⟩ := right_embeds.advance hs
        obtain ⟨conn,conn',hconn,hstep,h⟩ := hG.advance u w k c e hrun hinv hc hset hw
        exact ⟨conn,conn',hconn,hstep,right_embeds.moved (fun _ _ h => h) h⟩

end Either
/-! ### The network -/

section Streams
variable {σ ε : Type} (F : Front σ ε)

/-- What has arrived on a connection that has been started. -/
def received (s : Host σ) (k : ℕ) : Bytes :=
  if F.started s.front k then ((F.conns s.front)[k]?.map Connection.received).getD [] else []

def wire (s : Host σ) (k : ℕ) : Bytes :=
  if F.started s.front k then ((F.conns s.front)[k]?.map Connection.wire).getD [] else []

variable {ι : Type*}

/-- What arrives is the next part of what the other end has sent. -/
def Delivers (peer : Peers ι) (hosts : ι → Host σ) (a : ι) : Hosts.Event ε → Prop
  | .io k (.receive bytes) => ∀ l ∈ peer a k,
      received F (hosts a) k ++ bytes <+: wire F (hosts l.1) l.2
  | _ => True

instance (peer : Peers ι) (hosts : ι → Host σ) (a : ι) : ∀ e, Decidable (Delivers F peer hosts a e)
  | .io k (.receive bytes) =>
      inferInstanceAs (Decidable (∀ l ∈ peer a k, received F (hosts a) k ++ bytes <+: _))
  | .io _ (.readReady _) | .io _ (.readFail _ _) | .io _ (.runRead _ _) | .io _ (.callWrite _)
  | .io _ (.sendChunk _ _) | .io _ (.writeReady _) | .io _ (.writeFail _ _) | .io _ (.runWrite _)
  | .io _ .callStop | .own _ | .thread _ | .runRead _ _ => inferInstanceAs (Decidable True)

def step [DecidableEq ι] (H : Bytes → ℕ) (abi : Abi) (peer : Peers ι) :
    (ι → Host σ) → ι × Hosts.Event ε → Option (ι → Host σ) :=
  Interleavings.step (Hosts.step F H abi) (Delivers F peer)

/-- The step is settled, and what it writes finds nothing unsent on its connection. -/
def Orderly (P : σ → σ → Prop) (H : Bytes → ℕ) (abi : Abi) (hosts : ι → Host σ)
    (e : ι × Hosts.Event ε) : Prop :=
  ∀ t ∈ Hosts.step F H abi (hosts e.1) e.2, P (hosts e.1).front t.front ∧
    ∀ cs ∈ (F.conns (hosts e.1).front).zip (F.conns t.front), Unhurried cs.1 cs.2

instance (P : σ → σ → Prop) [∀ u v, Decidable (P u v)] (H : Bytes → ℕ) (abi : Abi)
    (hosts : ι → Host σ) (e : ι × Hosts.Event ε) : Decidable (Orderly F P H abi hosts e) :=
  inferInstanceAs (Decidable (∀ t ∈ _, _ ∧ ∀ cs ∈ _, _))

end Streams

section Network
variable {σ ε ι : Type} {F : Front σ ε} {Inv : σ → ℕ → Prop} {P : σ → σ → Prop}
  {H : Bytes → ℕ} {abi : Abi} {o : ByteOrder} {peer : Peers ι} {s t : Host σ} {n n' : Node}
  {hosts hosts' : ι → Host σ} {net : ι → Node} {e : ι × Hosts.Event ε} {k : ℕ}

/-- A place that is not used has neither received nor sent anything. -/
theorem matches_streams (h : Matches F Inv s n) (k : ℕ) :
    NetworkState.received n k = received F s k ∧ NetworkState.wire n k = wire F s k := by
  unfold received wire NetworkState.received NetworkState.wire
  cases hk : F.started s.front k with
  | true =>
      obtain ⟨conn,hconn,hnode⟩ := h.conns k hk
      rw [hconn,hnode]
      exact ⟨rfl,rfl⟩
  | false =>
      cases hnode : n.conns[k]? with
      | none => exact ⟨rfl,rfl⟩
      | some conn =>
          rw [h.idle k conn hnode hk]
          exact ⟨rfl,rfl⟩

theorem delivers_of_io {e : NodeState.Event} {a : ι} (h : ∀ k bytes, e = .io k (.receive bytes) →
    ∀ l ∈ peer a k, NetworkState.received (net a) k ++ bytes <+: NetworkState.wire (net l.1) l.2) :
    NetworkState.Delivers peer net a e := by
  cases e with
  | io k e =>
      cases e with
      | receive bytes => exact h k bytes rfl
      | readReady _ | readFail _ _ | runRead _ _ | callWrite _ | sendChunk _ _ | writeReady _
      | writeFail _ _ | runWrite _ | callStop => trivial
  | thread _ | accept _ | connect _ | runRead _ _ => trivial

/-- Writes find on the connections of the node what they find on those of the
host. -/
theorem unhurried_of_host (h : Matches F Inv s n) (h' : Matches F Inv t n')
    (hstarts : ∀ c < n.conns.length, F.started t.front c = F.started s.front c)
    (hun : ∀ cs ∈ (F.conns s.front).zip (F.conns t.front), Unhurried cs.1 cs.2) :
    ∀ cs ∈ n.conns.zip n'.conns, Unhurried cs.1 cs.2 := by
  intro cs hcs
  obtain ⟨c,hc⟩ := List.mem_iff_getElem?.mp hcs
  obtain ⟨hnode,hnode'⟩ := List.getElem?_zip_eq_some.mp hc
  have hsame := hstarts c (List.getElem?_eq_some_iff.mp hnode).choose
  cases hk : F.started s.front c with
  | true =>
      rw [hk] at hsame
      obtain ⟨conn,hconn,hn⟩ := h.conns c hk
      obtain ⟨conn',hconn',hn'⟩ := h'.conns c hsame
      obtain rfl := Option.some.inj (hn.symm.trans hnode)
      obtain rfl := Option.some.inj (hn'.symm.trans hnode')
      have hzip := List.getElem?_zip_eq_some.mpr ⟨hconn,hconn'⟩
      exact hun cs (List.mem_of_getElem? hzip)
  | false =>
      rw [hk] at hsame
      left
      rw [h.idle c _ hnode hk,h'.idle c _ hnode' hsame]

/-- Every host has its node. -/
def Agree (F : Front σ ε) (Inv : σ → ℕ → Prop) (hosts : ι → Host σ) (net : ι → Node) : Prop :=
  ∀ a, Matches F Inv (hosts a) (net a)

/-- A step of the hosts is a step of their nodes or none. -/
theorem Agree.step [DecidableEq ι] (h : Agree F Inv hosts net) (hlaw : Lawful F H abi Inv P)
    (horderly : Orderly F P H abi hosts e)
    (hs : HostNetwork.step F H abi peer hosts e = some hosts') :
    Agree F Inv hosts' net ∨ ∃ e' net', Unforced H abi net e' ∧
      NetworkState.step H abi peer net e' = some net' ∧ Agree F Inv hosts' net' := by
  obtain ⟨a,e⟩ := e
  obtain ⟨hdelivers,t,ht,rfl⟩ := Interleavings.step_eq_some.mp hs
  obtain ⟨hsettled,hun⟩ := horderly t ht
  cases (h a).step hlaw hsettled ht with
  | none agree _ =>
      left
      intro b
      by_cases hb : b = a
      · subst hb
        rwa [Function.update_self]
      · rw [Function.update_of_ne hb]
        exact h b
  | one e' n' steps agree arrives starts =>
      refine Or.inr ⟨(a,e'),Function.update net a n',?_,?_,?_⟩
      · intro n'' hn''
        obtain rfl := Option.some.inj (steps.symm.trans hn'')
        exact unhurried_of_host (h a) agree starts hun
      · refine Interleavings.step_eq_some.mpr ⟨delivers_of_io ?_,n',steps,rfl⟩
        intro k bytes heq l hl
        obtain rfl := arrives k bytes heq
        rw [(matches_streams (h a) k).1,(matches_streams (h l.1) l.2).2]
        exact hdelivers l hl
      · intro b
        by_cases hb : b = a
        · subst hb
          rwa [Function.update_self,Function.update_self]
        · rw [Function.update_of_ne hb,Function.update_of_ne hb]
          exact h b

end Network
/-! ### The programs -/

/-- A process runs the server or the client. -/
abbrev program : Front (Server ⊕ Client) (ServerState.Event ⊕ ClientState.Event) :=
  either tcpServer tcpClient

def ProgramSettled : Server ⊕ Client → Server ⊕ Client → Prop :=
  EitherSettled (fun _ _ => True) Unhasty

instance (u v : Server ⊕ Client) : Decidable (ProgramSettled u v) :=
  inferInstanceAs (Decidable (EitherSettled _ _ _ _))

/-- Servers and clients that have not been started. -/
def start {ι : Type} (serves : ι → Bool) : ι → Host (Server ⊕ Client) :=
  fun a => {front := if serves a then .inl {} else .inr {}}

theorem start_agree {ι : Type} (serves : ι → Bool) :
    Agree program (Sum.elim ServerInv ClientInv) (start serves) NetworkState.start := by
  intro a
  cases ha : serves a with
  | true =>
      simp only [start,ha,if_true]
      refine ⟨rfl,⟨ServerConnections.recorded_init,rfl⟩,nofun,nofun,nofun⟩
  | false =>
      simp only [start,ha]
      refine ⟨rfl,⟨.idle rfl rfl,nofun⟩,nofun,nofun,nofun⟩

section Programs
variable {ι : Type} [DecidableEq ι] {H : Bytes → ℕ} {o : ByteOrder} {peer : Peers ι}
  {serves : ι → Bool} {es : List (ι × Hosts.Event (ServerState.Event ⊕ ClientState.Event))}
  {hosts : ι → Host (Server ⊕ Client)}

/-- A run of servers and clients is matched by a run of nodes, and that by one of
processes that exchange messages. -/
theorem programs_simulated
    (hrun : exec (step program H (lp64 o) peer) (start serves) es = some hosts)
    (horderly : AllSteps (step program H (lp64 o) peer)
      (Orderly program ProgramSettled H (lp64 o)) (start serves) es) :
    ∃ net fs mail, exec (MessageNetwork.step H o peer) (fun _ => {}) fs = some mail ∧
      Refines H o peer net mail ∧ Agree program (Sum.elim ServerInv ClientInv) hosts net := by
  have hlaw : Lawful program H (lp64 o) (Sum.elim ServerInv ClientInv) ProgramSettled :=
    either_lawful (server_lawful H (lp64 o)) (client_lawful H (lp64 o))
  obtain ⟨gs,net,hunforced,hgs,hnet⟩ := exec_simulates (fun _ _ _ _ hR hC hs => hR.step hlaw hC hs)
    (start_agree serves) horderly hrun
  obtain ⟨fs,mail,hfs,hmail⟩ := run_refines hgs hunforced
  exact ⟨net,fs,mail,hfs,hmail,hnet⟩

end Programs

/-- A run of servers and clients in which `m_connection` changes only between
connects, and what is written finds nothing unsent on its connection, is matched by
a run of processes that exchange messages in turn: the processes end in the same
states, and what was dispatched and written on each connection is what was taken
and posted at its port. -/
theorem programs_refine {ι : Type} [DecidableEq ι] (H : Bytes → ℕ) (o : ByteOrder)
    (peer : Peers ι) (serves : ι → Bool)
    (es : List (ι × Hosts.Event (ServerState.Event ⊕ ClientState.Event)))
    (hosts : ι → Host (Server ⊕ Client))
    (hrun : exec (step program H (lp64 o) peer) (start serves) es = some hosts)
    (horderly : AllSteps (step program H (lp64 o) peer)
      (Orderly program ProgramSettled H (lp64 o)) (start serves) es) :
    ∃ fs mail, exec (MessageNetwork.step H o peer) (fun _ => {}) fs = some mail ∧
      Ordered (machine H o) peer mail ∧ ∀ a, (mail a).process = (hosts a).process ∧
        ∀ (c : ℕ) (conn : Connection), program.started (hosts a).front c = true →
          (program.conns (hosts a).front)[c]? = some conn →
          conn.dispatched = on c (mail a).process.received ∧
            conn.written = on c (mail a).posts := by
  obtain ⟨net,fs,mail,hfs,hmail,hnet⟩ := programs_simulated hrun horderly
  refine ⟨fs,mail,hfs,run_ordered (fun _ _ => rfl) hfs,?_⟩
  intro a
  refine ⟨(hmail.abstracts a).process.trans (hnet a).process,?_⟩
  intro c conn hc hconn
  have hnode := (hnet a).at_node hc hconn
  rw [(hmail.abstracts a).process]
  exact ⟨(hmail.composed a).dispatched c conn hnode,(hmail.abstracts a).posts c conn hnode⟩

/-- A frame is read on connection `k`. -/
def readFrame {ε : Type} (k : ℕ) (bytes : Bytes) : List (Hosts.Event ε) :=
  [.io k (.receive bytes),.io k (.readReady 0),.runRead k 0,.io k (.readReady 0),.runRead k 0]

def helloReply : Bytes :=
  ((Message.build .little (helloClient []) MsgType.response.code 1 5 0).getD .empty).frame
    (lp64 .little)

/-- A client connects to a server, greets it and calls its handler. -/
def helloRun : List (Bool × Hosts.Event (ServerState.Event ⊕ ClientState.Event)) :=
  [(true,.own (.inl .start)),(true,.own (.inl (.acceptDone 0 0))),
    (true,.own (.inl (.runAccept 0 (some "a") (some 1)))),(false,.own (.inr (.start true))),
    (false,.own (.inr (.connectDone 0 0))),(false,.own (.inr (.handle 0 (some "b") (some 1)))),
    (false,.io 0 (.sendChunk 0 33)),(false,.thread (.setConnection (some 0))),
    (false,.thread (.call helloName [7] []))] ++ List.replicate 9 (false,.thread (.run 0)) ++
    [(false,.io 0 (.sendChunk 1 21))] ++
    (readFrame 0 NetworkDelivery.greetingFrame ++
      readFrame 0 (FrameBounds.shortRequest.frame (lp64 .little))).map (Prod.mk true) ++
    [(true,.io 0 (.sendChunk 0 32))] ++ (readFrame 0 helloReply).map (Prod.mk false) ++
    List.replicate 3 (false,.thread (.run 0))

set_option maxRecDepth 20000 in
theorem helloRun_orderly : AllSteps (step program (fun _ => 5) (lp64 .little) NetworkDelivery.pair)
    (Orderly program ProgramSettled (fun _ => 5) (lp64 .little)) (start id) helloRun := by
  decide +kernel

theorem programs_refine_hello :
    ∃ hosts ∈ exec (step program (fun _ => 5) (lp64 .little) NetworkDelivery.pair) (start id)
        helloRun,
      (∃ c ∈ (hosts false).process.calls[0]?, c.pc = .returned .rpcOk ∧ c.res = helloClient []) ∧
      ∃ fs mail, exec (MessageNetwork.step (fun _ => 5) .little NetworkDelivery.pair)
          (fun _ => {}) fs = some mail ∧
        Ordered (machine (fun _ => 5) .little) NetworkDelivery.pair mail ∧
        ∀ a, (mail a).process = (hosts a).process := by
  have hrun : ∃ hosts ∈ exec (step program (fun _ => 5) (lp64 .little) NetworkDelivery.pair)
      (start id) helloRun, ∃ c ∈ (hosts false).process.calls[0]?,
        c.pc = .returned .rpcOk ∧ c.res = helloClient [] := by decide +kernel
  obtain ⟨hosts,hhosts,hcall⟩ := hrun
  obtain ⟨fs,mail,hfs,hordered,hmail⟩ :=
    programs_refine _ _ _ _ _ hosts hhosts helloRun_orderly
  exact ⟨hosts,hhosts,hcall,fs,mail,hfs,hordered,fun a => (hmail a).1⟩

end SindiaRpc.HostNetwork
