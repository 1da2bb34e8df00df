import SindiaRpc.Hosts
import SindiaRpc.ClientConnections

/-!
# The client to its peers

`HandleConnection` starts the object in `m_connection` and greets on it; objects
whose connect fails are never started. As long as `m_connection` changes only
while no connect is outstanding, the objects are greeted in the order of their
creation, and each connect ends with its own object or with none.
-/
namespace SindiaRpc.ClientHost
open MessageFrames DispatcherTable RpcProcess ConnectionState ConnectionHistories ClientState
  ClientConnections NodeState Hosts GuardedRuns ListUpdates

/-- The steps of `TcpClient` but those of its connections. -/
def clientStep (H : Bytes → ℕ) (abi : Abi) (u : Client) : ClientState.Event → Option Client
  | .connection _ _ => none
  | e => ClientState.step abi H u e

def tcpClient : Front Client ClientState.Event where
  conns := Client.conns
  started u c := decide (c ∈ u.greeted)
  held u c := decide (u.Held c)
  alive _ := true
  running _ := true
  replace u conns := {u with conns := conns}
  closeConn c u := u.closeConn (some c)
  registers _ := none
  step H abi u e := clientStep H abi u e

/-- `m_connection` changes only while no connect is outstanding. -/
def Unhasty (u v : Client) : Prop := v.connection = u.connection ∨ u.attempts = []

instance (u v : Client) : Decidable (Unhasty u v) := inferInstanceAs (Decidable (_ ∨ _))

/-- An object before its `Start`. -/
def unstarted (opened : Bool) : Connection := {isOpen := opened, message := .empty, closecb := true}

/-- One connect is outstanding at most, that of the newest object. -/
inductive Between (u : Client) (k : ℕ) : Prop
  | idle (attempts : u.attempts = []) (conns : u.conns.length = k)
  | connecting (result : Option ErrorCode) (opened : Bool) (attempts : u.attempts = [⟨k,result⟩])
      (connection : u.connection = some k) (conns : u.conns.length = k + 1)
      (mem : u.conns[k]? = some (unstarted opened))

structure ClientInv (u : Client) (k : ℕ) : Prop where
  between : Between u k
  greeted : ∀ c ∈ u.greeted, c < k

theorem Between.frame {u v : Client} {k : ℕ} (h : Between u k) (hattempts : v.attempts = u.attempts)
    (hconnection : v.connection = u.connection) (hconns : v.conns = u.conns) : Between v k := by
  cases h with
  | idle attempts conns => exact .idle (hattempts.trans attempts) (by rw [hconns,conns])
  | connecting result opened attempts connection conns mem =>
      refine .connecting result opened (hattempts.trans attempts)
        (hconnection.trans connection) ?_ ?_
      · rw [hconns,conns]
      · rw [hconns,mem]

section Laws
variable {H : Bytes → ℕ} {abi : Abi} {u v : Client} {k c i : ℕ} {e : ClientState.Event}
  {conn conn' : Connection} {opened : Bool}

/-- While something holds an object, its steps are those that `TcpClient` has. -/
theorem advance_eq (hheld : u.Held c) (e : ConnectionState.Event) :
    ClientState.step abi H u (.connection c e) = advance tcpClient abi c e u := by
  simp only [ClientState.step,if_pos hheld]
  rfl

theorem step_of_clientStep (hs : clientStep H abi u e = some v) :
    ClientState.step abi H u e = some v := by
  cases e with
  | connection c e => cases hs
  | start _ | test _ | retry _ _ | connectDone _ _ | handle _ _ _ => exact hs

theorem started_iff : tcpClient.started u c = true ↔ c ∈ u.greeted := decide_eq_true_iff

theorem started_congr (h : v.greeted = u.greeted) (c : ℕ) :
    tcpClient.started v c = tcpClient.started u c := by
  rw [Bool.eq_iff_iff,started_iff,started_iff,h]

/-- While a connect is outstanding `m_connection` stays. -/
theorem ClientInv.attempt (h : ClientInv u k) {a : Attempt} (ha : u.attempts[i]? = some a) :
    i = 0 ∧ ∃ opened, a.conn = k ∧ u.attempts = [a] ∧ u.connection = some k ∧
      u.conns.length = k + 1 ∧ u.conns[k]? = some (unstarted opened) := by
  cases h.between with
  | idle attempts conns =>
      rw [attempts] at ha
      cases ha
  | connecting result opened attempts connection conns mem =>
      rw [attempts,List.getElem?_singleton] at ha
      split_ifs at ha with hi
      cases ha
      exact ⟨hi,opened,rfl,attempts,connection,conns,mem⟩

/-- A new object is created while there is no connect. -/
theorem startConnect_kept (h : ClientInv u k) (hattempts : u.attempts = []) (opened : Bool) :
    Kept tcpClient ClientInv u (u.startConnect opened) k := by
  have hlen : u.conns.length = k := by
    cases h.between with
    | idle _ conns => exact conns
    | connecting _ _ attempts =>
        rw [attempts] at hattempts
        cases hattempts
  refine ⟨⟨.connecting none opened ?_ ?_ ?_ ?_,h.greeted⟩,fun _ => rfl,?_⟩
  · simp [Client.startConnect,hattempts,hlen]
  · simp [Client.startConnect,hlen]
  · simp [Client.startConnect,hlen]
  · simp [Client.startConnect,← hlen,unstarted]
  · intro c hc
    have hlt := h.greeted c (started_iff.mp hc)
    exact List.getElem?_append_left (by rw [hlen]; exact hlt)

/-- A step that leaves objects and connects alone. -/
theorem kept_of_eq (h : ClientInv u k) (hattempts : v.attempts = u.attempts)
    (hconnection : v.connection = u.connection) (hconns : v.conns = u.conns)
    (hgreeted : v.greeted = u.greeted) : Kept tcpClient ClientInv u v k := by
  refine ⟨⟨h.between.frame hattempts hconnection hconns,?_⟩,started_congr hgreeted,
    fun c _ => congrArg (·[c]?) hconns⟩
  rw [hgreeted]
  exact h.greeted

/-- `HandleConnection` on the object of the connect, which has succeeded. -/
theorem handleConnection_started {ip : Option String} {port : Option ℕ}
    (hk : u.connection = some k) (hc : u.conns[k]? = some (connected .empty true))
    (hs : Client.handleConnection abi H 0 ip port u = some v) : ∃ addr conn,
      greeted H abi addr = some conn ∧ v = {u with
        isconnected := true
        conns := u.conns.set k conn
        greeted := u.greeted ++ [k]} := by
  have hopen : (connected .empty true).isOpen = true := rfl
  cases ip with
  | none => simp [Client.handleConnection,hk,hc,hopen,Connection.start] at hs
  | some a =>
      cases port with
      | none => simp [Client.handleConnection,hk,hc,hopen,Connection.start] at hs
      | some m =>
          rw [handleConnection_greets hk hc] at hs
          obtain ⟨conn,hconn,rfl⟩ := Option.map_eq_some_iff.mp hs
          exact ⟨_,conn,hconn,rfl⟩

theorem checkConnect_conns (u : Client) : u.checkConnect.conns = u.conns := by
  unfold Client.checkConnect
  split_ifs <;> rfl

/-- The connect is over and its object is not used. -/
theorem skipped_kept (h : ClientInv u k) (hlen : u.conns.length = k + 1) (hattempts : v.attempts = [])
    (hconns : v.conns = u.conns) (hgreeted : v.greeted = u.greeted) :
    Kept tcpClient ClientInv u v (k + 1) := by
  refine ⟨⟨.idle hattempts (by rw [hconns,hlen]),?_⟩,started_congr hgreeted,
    fun c _ => congrArg (·[c]?) hconns⟩
  intro c hc
  rw [hgreeted] at hc
  exact Nat.lt_succ_of_lt (h.greeted c hc)

theorem handle_outcome (h : ClientInv u k) {ip : Option String} {port : Option ℕ}
    (hs : ClientState.step abi H u (.handle i ip port) = some v) :
    Outcome tcpClient H abi ClientInv u v k (.handle i ip port) := by
  obtain ⟨a,error,ha,_,hrun⟩ := step_handle.mp hs
  obtain ⟨rfl,opened,hconn,hone,hconnection,hlen,hmem⟩ := h.attempt ha
  have hnil : u.attempts.eraseIdx 0 = [] := by rw [hone]; rfl
  obtain ⟨j,c,hj,hc,hcases⟩ := handleConnection_cases hrun
  obtain rfl := Option.some.inj (hj.symm.trans hconnection)
  obtain rfl := Option.some.inj (hc.symm.trans hmem)
  rcases hcases with ⟨_,rfl⟩ | ⟨_,_,rfl⟩ | ⟨hopen,rfl,_⟩
  · exact .skipped rfl (skipped_kept h hlen hnil rfl rfl)
  · obtain ⟨hattempts,_,_,hgreeted,_⟩ :=
      checkConnect_frame {u with attempts := u.attempts.eraseIdx 0}
    exact .skipped rfl
      (skipped_kept h hlen (hattempts.trans hnil) (checkConnect_conns _) hgreeted)
  · obtain rfl : opened = true := hopen
    obtain ⟨addr,conn,hgreets,rfl⟩ := handleConnection_started hj hmem hrun
    have hlt : j < u.conns.length := by omega
    refine .opened rfl addr conn (Or.inr hgreets) ⟨.idle hnil ?_,?_⟩ ?_ ?_ ?_
    · rw [List.length_set,hlen]
    · intro c hc
      rcases List.mem_append.mp hc with hc | hc
      · exact Nat.lt_succ_of_lt (h.greeted c hc)
      · rw [List.mem_singleton.mp hc]
        exact Nat.lt_succ_self _
    · exact List.getElem?_set_self hlt
    · intro c
      rw [started_iff,started_iff]
      simp
    · intro c hc
      have hne : j ≠ c := (h.greeted c (started_iff.mp hc)).ne'
      exact List.getElem?_set_ne hne

theorem own_outcome (h : ClientInv u k) (hset : Unhasty u v) (hs : clientStep H abi u e = some v) :
    Outcome tcpClient H abi ClientInv u v k e := by
  have hstep := step_of_clientStep hs
  cases e with
  | connection c e => cases hs
  | start opened =>
      obtain ⟨hnil,rfl⟩ := step_start.mp hstep
      refine .kept (startConnect_kept h ?_ opened)
      cases h.between with
      | idle attempts conns => exact attempts
      | connecting result opened attempts connection conns mem =>
          rw [hnil] at conns
          cases conns
  | test n =>
      obtain ⟨_,rfl⟩ := step_test.mp hstep
      exact .kept (kept_of_eq h rfl rfl rfl rfl)
  | retry n opened =>
      obtain ⟨_,rfl⟩ := step_retry.mp hstep
      have hnil : u.attempts = [] := by
        rcases hset with hsame | hnil
        · cases h.between with
          | idle attempts conns => exact attempts
          | connecting result opened attempts connection conns mem =>
              rw [connection] at hsame
              have hlen : u.conns.length = k := Option.some.inj hsame
              omega
        · exact hnil
      have hkept := startConnect_kept h hnil opened
      exact .kept ⟨⟨hkept.inv.between.frame rfl rfl rfl,hkept.inv.greeted⟩,hkept.started,hkept.conns⟩
  | connectDone i error =>
      obtain ⟨a,ha,_,_,rfl⟩ := step_connectDone.mp hstep
      obtain ⟨rfl,opened,rfl,hone,hconnection,hlen,hmem⟩ := h.attempt ha
      refine .kept ⟨⟨.connecting (some error) opened ?_ hconnection hlen hmem,h.greeted⟩,
        fun _ => rfl,fun _ _ => rfl⟩
      change u.attempts.set 0 _ = _
      rw [hone]
      rfl
  | handle i ip port => exact handle_outcome h hstep

/-- A step of an object that has been started. -/
theorem moved_set (h : ClientInv u k) (hc : c ∈ u.greeted) (conn' : Connection) :
    Moved tcpClient ClientInv u {u with conns := u.conns.set c conn'} k c conn' := by
  refine ⟨⟨?_,h.greeted⟩,fun _ => rfl,rfl⟩
  cases h.between with
  | idle attempts conns => exact .idle attempts (List.length_set.trans conns)
  | connecting result opened attempts connection conns mem =>
      have hne : c ≠ k := (h.greeted c hc).ne
      refine .connecting result opened attempts connection (List.length_set.trans conns) ?_
      exact (List.getElem?_set_ne hne).trans mem

/-- The close callback empties `m_connection`, so no connect is outstanding then. -/
theorem closeConn_moved (hmoved : Moved tcpClient ClientInv u v k c conn')
    (hset : v.connection = none ∨ v.attempts = []) :
    Moved tcpClient ClientInv u (v.closeConn (some c)) k c conn' := by
  obtain ⟨hattempts,_,_,hgreeted,_⟩ :=
    checkConnect_frame {v with isconnected := false, connection := none}
  have hconns : (v.closeConn (some c)).conns = v.conns := checkConnect_conns _
  refine ⟨⟨?_,?_⟩,?_,hconns.trans hmoved.conns⟩
  · cases hmoved.inv.between with
    | idle attempts conns => exact .idle (hattempts.trans attempts) (by rw [hconns,conns])
    | connecting result opened attempts connection conns mem =>
        rw [connection,attempts] at hset
        rcases hset with hset | hset <;> cases hset
  · intro d hd
    exact hmoved.inv.greeted d (hgreeted ▸ hd)
  · intro d
    exact (started_congr hgreeted d).trans (hmoved.started d)

theorem advance_moved (h : ClientInv u k) (hc : c ∈ u.greeted) (hset : Unhasty u v)
    {e : ConnectionState.Event} (hs : advance tcpClient abi c e u = some v) :
    ∃ conn conn', u.conns[c]? = some conn ∧ ConnectionState.step abi conn e = some conn' ∧
      Moved tcpClient ClientInv u v k c conn' := by
  simp only [advance,Option.bind_eq_bind,Option.bind_eq_some_iff,Option.some.injEq] at hs
  obtain ⟨conn,hconn,conn',hstep,rfl⟩ := hs
  refine ⟨conn,conn',hconn,hstep,?_⟩
  have hmoved := moved_set h hc conn'
  split_ifs with hlt
  · refine closeConn_moved hmoved ?_
    rw [if_pos hlt] at hset
    refine hset.imp_left fun hsame => ?_
    exact hsame.symm.trans (checkConnect_frame _).2.1
  · exact hmoved

theorem client_lawful (H : Bytes → ℕ) (abi : Abi) :
    Lawful tcpClient H abi ClientInv Unhasty where
  own _ _ _ _ _ h hset hs := own_outcome h hset hs
  same _ := rfl
  write _ _ _ _ conn' _ h hc _ _ := moved_set h (started_iff.mp hc) conn'
  advance _ _ _ _ _ _ h hc hset hs := advance_moved h (started_iff.mp hc) hset hs

end Laws

/-- Every run of a client in which `m_connection` changes only while no connect is
outstanding is matched by a run of a node: its process ends in the same state, and
so does every connection that was started, whether or not `m_connection` still
refers to it. -/
theorem client_refines (H : Bytes → ℕ) (abi : Abi) (es : List (Hosts.Event ClientState.Event))
    (s : Host Client) (hrun : exec (step tcpClient H abi) {front := {}} es = some s)
    (hset : AllSteps (step tcpClient H abi) (Settles tcpClient Unhasty H abi) {front := {}} es) :
    ∃ fs n, exec (NodeState.step H abi) Node.empty fs = some n ∧ n.process = s.process ∧
      ∀ c ∈ s.front.greeted, n.conns[c]? = s.front.conns[c]? := by
  have hstart : Matches tcpClient ClientInv {front := {}} Node.empty :=
    ⟨rfl,⟨.idle rfl rfl,nofun⟩,nofun,nofun,nofun⟩
  obtain ⟨fs,n,hfs,hn⟩ := host_refines (client_lawful H abi) hstart hset hrun
  refine ⟨fs,n,hfs,hn.process,fun c hc => ?_⟩
  obtain ⟨conn,hconn,hnode⟩ := hn.conns c (started_iff.mpr hc)
  exact hnode.trans hconn.symm

/-- A connect is refused, the next succeeds, the peer closes the connection and the
client connects again. -/
def reconnectedRun : List (Hosts.Event ClientState.Event) :=
  [.own (.start true),.own (.connectDone 0 111),.own (.handle 0 none none),.own (.test 0),
    .own (.retry 0 true),.own (.connectDone 0 0),.own (.handle 0 (some "a") (some 1)),
    .io 1 (.readFail 0 2),.runRead 1 0,.own (.test 0),.own (.retry 0 true),
    .own (.connectDone 0 0),.own (.handle 0 (some "a") (some 1))]

theorem client_refines_reconnected :
    ∃ s ∈ exec (step tcpClient (fun _ => 5) (lp64 .little)) {front := {}} reconnectedRun,
      s.front.greeted = [1,2] ∧ ∃ fs n,
        exec (NodeState.step (fun _ => 5) (lp64 .little)) Node.empty fs = some n ∧
          n.process = s.process ∧ ∀ c ∈ s.front.greeted, n.conns[c]? = s.front.conns[c]? := by
  have hset : AllSteps (step tcpClient (fun _ => 5) (lp64 .little))
      (Settles tcpClient Unhasty (fun _ => 5) (lp64 .little)) {front := {}} reconnectedRun := by
    decide
  have hrun : ∃ s ∈ exec (step tcpClient (fun _ => 5) (lp64 .little)) {front := {}} reconnectedRun,
      s.front.greeted = [1,2] := by decide
  obtain ⟨s,hs,hgreeted⟩ := hrun
  exact ⟨s,hs,hgreeted,client_refines _ _ _ s hs hset⟩

end SindiaRpc.ClientHost
