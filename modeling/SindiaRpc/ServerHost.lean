import SindiaRpc.Hosts
import SindiaRpc.ServerConnections
import SindiaRpc.NodeHistories

/-!
# The server to its peers

`Start` registers the handler of the test message and begins to accept. The table
refers to the connections weakly, so that only reads keep them, and an exception
that leaves the accept handler ends the process before `Start` has returned on the
connection it was for.
-/
namespace SindiaRpc.ServerHost
open MessageFrames DispatcherTable RpcProcess ConnectionState ReadLoop StreamReading ServerState
  ServerConnections ProcessWrites WriteSteps NodeState NodeHistories Hosts FrameBounds GuardedRuns
  ListUpdates
open ClientState (helloName)

/-- `"hello client"`, whatever the request is. -/
def helloClient : Bytes → Bytes := fun _ => [104,101,108,108,111,32,99,108,105,101,110,116]

/-- The steps of `TcpServer` but those of its connections. -/
def serverStep (abi : Abi) (u : Server) : ServerState.Event → Option Server
  | .connection _ _ => none
  | e => ServerState.step abi u e

def tcpServer : Front Server ServerState.Event where
  conns := Server.conns
  started u c := decide (c + u.failed.toNat < u.conns.length)
  held u c := decide (u.Held c)
  alive u := !u.failed
  running u := decide u.Running
  replace u conns := {u with conns := conns}
  closeConn := Server.closeConn
  registers
    | .start => some (helloName,some helloClient)
    | _ => none
  step _ abi u e := serverStep abi u e

/-- The table is as the accept loop leaves it, and the last connection is not
started if the handler has failed. -/
structure ServerInv (u : Server) (k : ℕ) : Prop where
  recorded : Recorded u
  length : u.conns.length = k + u.failed.toNat

section Laws
variable {H : Bytes → ℕ} {abi : Abi} {u v : Server} {k c : ℕ} {e : ServerState.Event}
  {conn conn' : Connection}

/-- While a read holds a connection, its steps are those that `TcpServer` has. -/
theorem advance_eq (hrun : u.Running) (hheld : u.Held c) (e : ConnectionState.Event) :
    ServerState.step abi u (.connection c e) = advance tcpServer abi c e u := by
  simp only [ServerState.step,if_pos (show u.Running ∧ u.Held c from ⟨hrun,hheld⟩)]
  rfl

theorem step_of_serverStep (hs : serverStep abi u e = some v) :
    ServerState.step abi u e = some v := by
  cases e with
  | connection c e => cases hs
  | start | acceptDone _ _ | runAccept _ _ _ | stop => exact hs

theorem started_iff : tcpServer.started u c = true ↔ c + u.failed.toNat < u.conns.length :=
  decide_eq_true_iff

theorem started_intact (hf : u.failed = false) :
    tcpServer.started u c = true ↔ c < u.conns.length := by
  rw [started_iff,hf]
  rfl

theorem started_congr (hlen : v.conns.length = u.conns.length) (hf : v.failed = u.failed) (c : ℕ) :
    tcpServer.started v c = tcpServer.started u c := by
  rw [Bool.eq_iff_iff,started_iff,started_iff,hlen,hf]

/-- A step that leaves the connections alone. -/
theorem kept_of_eq (h : ServerInv u k) (hrec : Recorded v) (hconns : v.conns = u.conns)
    (hf : v.failed = u.failed) : Kept tcpServer ServerInv u v k := by
  refine ⟨⟨hrec,by rw [hconns,hf,h.length]⟩,started_congr (by rw [hconns]) hf,?_⟩
  intro c _
  exact congrArg (·[c]?) hconns

/-- A step of one connection. -/
theorem moved_set (h : ServerInv u k) (hc : u.conns[c]? = some conn)
    (haddr : conn'.peeraddr = conn.peeraddr) :
    Moved tcpServer ServerInv u {u with conns := u.conns.set c conn'} k c conn' := by
  refine ⟨⟨⟨by simpa using h.recorded.table,?_⟩,by simpa using h.length⟩,?_,rfl⟩
  · intro hf
    apply forall_mem_set (h.recorded.addressed hf)
    rw [haddr]
    exact h.recorded.addressed hf conn (List.mem_of_getElem? hc)
  · exact started_congr List.length_set rfl

/-- `Stop` is `Stop` on the last connection, or on none. -/
theorem closedLast_cases (u : Server) : closedLast u = u.conns ∨ ∃ c conn,
    u.conns[c]? = some conn ∧ closedLast u = u.conns.set c conn.close := by
  unfold closedLast
  split
  · exact Or.inl rfl
  · rename_i conn hconn
    split_ifs
    · exact Or.inl rfl
    · exact Or.inr ⟨_,conn,hconn,rfl⟩

theorem runAccept_outcome (h : ServerInv u k) (hf : u.failed = false) {i : ℕ} {ip : Option String}
    {port : Option ℕ} (hs : ServerState.step abi u (.runAccept i ip port) = some v) :
    Outcome tcpServer H abi ServerInv u v k (.runAccept i ip port) := by
  have hrec := h.recorded.step hs
  have hlen : u.conns.length = k := by rw [h.length,hf]; rfl
  obtain ⟨error,_,_,rfl⟩ := step_runAccept.mp hs
  by_cases hzero : error = 0
  · subst hzero
    rcases acceptHandler_cases ip port {u with accepts := u.accepts.eraseIdx i} with
      ⟨a,m,_,_,heq⟩ | ⟨_,heq⟩
    · rw [heq] at hrec ⊢
      refine .opened rfl (a ++ ":" ++ toString m) _ (Or.inl rfl) ⟨hrec,?_⟩ ?_ ?_ ?_
      · simp [Server.accept,hlen,hf]
      · simp [tcpServer,Server.accept,← hlen]
      · intro c
        rw [started_intact hf,started_intact (by exact hf)]
        simp only [Server.accept,List.length_append,List.length_singleton]
        omega
      · intro c hc
        exact List.getElem?_append_left ((started_intact hf).mp hc)
    · rw [heq] at hrec ⊢
      refine .kept ⟨⟨hrec,by simp [hlen]⟩,?_,?_⟩
      · intro c
        rw [Bool.eq_iff_iff,started_iff,started_intact hf]
        simp
      · intro c hc
        exact List.getElem?_append_left ((started_intact hf).mp hc)
  · rw [Server.acceptHandler,if_neg hzero] at hrec ⊢
    exact .kept (kept_of_eq h hrec rfl rfl)

theorem own_outcome (halive : tcpServer.alive u = true) (h : ServerInv u k)
    (hs : serverStep abi u e = some v) : Outcome tcpServer H abi ServerInv u v k e := by
  have hf : u.failed = false := by simpa [tcpServer] using halive
  have hstep := step_of_serverStep hs
  have hrec := h.recorded.step hstep
  cases e with
  | connection c e => cases hs
  | start =>
      obtain ⟨_,rfl⟩ := step_start.mp hstep
      exact .kept (kept_of_eq h hrec rfl rfl)
  | acceptDone i error =>
      obtain ⟨_,_,rfl⟩ := step_acceptDone.mp hstep
      exact .kept (kept_of_eq h hrec rfl rfl)
  | runAccept i ip port => exact runAccept_outcome h hf hstep
  | stop =>
      obtain ⟨_,hstop⟩ := step_stop.mp hstep
      rw [stop_eq h.recorded hf] at hstop
      cases hstop
      rcases closedLast_cases u with hlast | ⟨c,conn,hc,hlast⟩
      · exact .kept (kept_of_eq h hrec hlast rfl)
      · have hlen := length_closedLast u
        refine .stopped rfl c conn ?_ hc ⟨⟨hrec,by simp [hlen,h.length]⟩,?_,hlast⟩
        · exact (started_intact hf).mpr (List.getElem?_eq_some_iff.mp hc).choose
        · exact started_congr hlen rfl

/-- The close callback looks for an address under which nothing is entered. -/
theorem advance_moved (hrun : u.Running) (h : ServerInv u k) {e : ConnectionState.Event}
    (hs : Hosts.advance tcpServer abi c e u = some v) : ∃ conn conn', u.conns[c]? = some conn ∧
      ConnectionState.step abi conn e = some conn' ∧
      Moved tcpServer ServerInv u v k c conn' := by
  simp only [Hosts.advance,Option.bind_eq_bind,Option.bind_eq_some_iff,Option.some.injEq] at hs
  obtain ⟨conn,hc,conn',hstep,rfl⟩ := hs
  have hmoved : Moved tcpServer ServerInv u {u with conns := u.conns.set c conn'} k c conn' :=
    moved_set h hc (peeraddr_step hstep)
  have hclose : tcpServer.closeConn c {u with conns := u.conns.set c conn'} =
      {u with conns := u.conns.set c conn'} :=
    closeConn_eq hmoved.inv.recorded.table (hmoved.inv.recorded.addressed hrun.2.2)
  refine ⟨conn,conn',hc,hstep,?_⟩
  split_ifs
  · exact (congrArg (fun v => Moved tcpServer ServerInv u v k c conn') hclose).mpr hmoved
  · exact hmoved

theorem server_lawful (H : Bytes → ℕ) (abi : Abi) :
    Lawful tcpServer H abi ServerInv fun _ _ => True where
  own _ _ _ _ halive h _ hs := own_outcome halive h hs
  same _ := rfl
  write _ _ _ _ _ msg h _ hc hwrite :=
    moved_set h hc (peeraddr_step (e := .callWrite msg) hwrite)
  advance _ _ _ _ _ hrun h _ _ hs := advance_moved (of_decide_eq_true hrun) h hs

end Laws

/-- Every run of a server is matched by a run of a node: its process ends in the
same state, and so does every connection it has accepted, in the table or not. The
connection of an accept that ended the process is left out. -/
theorem server_refines (H : Bytes → ℕ) (abi : Abi) (es : List (Hosts.Event ServerState.Event))
    (s : Host Server) (hrun : exec (step tcpServer H abi) {front := {}} es = some s) : ∃ fs n,
    exec (NodeState.step H abi) Node.empty fs = some n ∧ n.process = s.process ∧
      ∀ c, c + s.front.failed.toNat < s.front.conns.length →
        n.conns[c]? = s.front.conns[c]? := by
  have hstart : Matches tcpServer ServerInv {front := {}} Node.empty := by
    refine ⟨rfl,⟨recorded_init,rfl⟩,nofun,nofun,nofun⟩
  have hset : AllSteps (step tcpServer H abi) (Settles tcpServer (fun _ _ => True) H abi)
      {front := {}} es := allSteps_of_forall (fun _ _ _ _ => trivial) _ es
  obtain ⟨fs,n,hfs,hn⟩ := host_refines (server_lawful H abi) hstart hset hrun
  refine ⟨fs,n,hfs,hn.process,fun c hc => ?_⟩
  obtain ⟨conn,hconn,hnode⟩ := hn.conns c (started_iff.mpr hc)
  exact hnode.trans hconn.symm

/-- A server answers a request and is stopped. -/
def stoppedRun : List (Hosts.Event ServerState.Event) :=
  [.own .start,.own (.acceptDone 0 0),.own (.runAccept 0 (some "a") (some 1)),
    .thread (.reghandler [1] (some id)),.io 0 (.receive (shortRequest.frame (lp64 .little))),
    .io 0 (.readReady 0),.runRead 0 0,.io 0 (.readReady 0),.runRead 0 0,.own .stop]

theorem server_refines_stopped :
    ∃ s ∈ exec (step tcpServer (fun _ => 5) (lp64 .little)) {front := {}} stoppedRun,
      s.process.ran.length = 1 ∧ ∃ fs n,
        exec (NodeState.step (fun _ => 5) (lp64 .little)) Node.empty fs = some n ∧
          n.process = s.process ∧ n.conns[0]? = s.front.conns[0]? := by
  have hrun : ∃ s ∈ exec (step tcpServer (fun _ => 5) (lp64 .little)) {front := {}} stoppedRun,
      s.process.ran.length = 1 ∧ 0 + s.front.failed.toNat < s.front.conns.length := by decide
  obtain ⟨s,hs,hran,hlt⟩ := hrun
  obtain ⟨fs,n,hfs,hprocess,hconns⟩ := server_refines _ _ _ s hs
  exact ⟨s,hs,hran,fs,n,hfs,hprocess,hconns 0 hlt⟩

end SindiaRpc.ServerHost
