import SindiaRpc.MessageFrames
import SindiaRpc.KeyedRoutes
import Mathlib.Data.List.AList

/-!
# The dispatcher's table of handlers (`common/dispatcher.cpp`)

`std::hash<std::string>` is a parameter `H` of which nothing is assumed. A
handler is stored under the low 32 bits of its name's hash and looked up with
the hash field of a message; an entry that exists is never replaced.
-/
namespace SindiaRpc.DispatcherTable
open MessageFrames KeyedRoutes

/-- How an operation of this program goes wrong without returning. -/
inductive Fault where
  /-- A copy or a string leaves `m_buffer`. -/
  | outOfBounds
  /-- A null `Connection_ptr` is dereferenced. -/
  | nullConnection
  /-- `set_value` on a promise that has a value throws `future_error`. -/
  | futureError
  deriving DecidableEq, Repr

/-- `Handler_t`; `none` is the empty `std::function`. -/
abbrev Handler := Option (Bytes → Bytes)

/-- `m_callmap`. -/
abbrev Callmap := AList fun _ : ℕ => Handler

/-- The key `reghandler` computes: a `uint32_t`, widened to `size_t`. -/
def hashKey (H : Bytes → ℕ) (name : Bytes) : ℕ := (UInt32.ofNat (H name)).toNat

/-- `emplace` inserts under a key that is free. -/
def reghandler (H : Bytes → ℕ) (name : Bytes) (handler : Handler) (callmap : Callmap) : Callmap :=
  if hashKey H name ∈ callmap then callmap else callmap.insert (hashKey H name) handler

structure Handled where
  res : Bytes
  /-- The handler that ran, with its argument. -/
  ran : List ((Bytes → Bytes) × Bytes) := []

/-- `handle` leaves `res` as it was where no handler is found. -/
def handle (callmap : Callmap) (msg : Message) (res : Bytes) : Except Fault Handled :=
  match callmap.lookup msg.getHash with
  | none => .ok ⟨res,[]⟩
  | some none => .ok ⟨res,[]⟩
  | some (some handler) =>
      match msg.dataString with
      | none => .error .outOfBounds
      | some req => .ok ⟨handler req,[(handler,req)]⟩

/-- The handler that runs on requests with this hash. -/
def bound (callmap : Callmap) (hash : ℕ) : Option (Bytes → Bytes) := (callmap.lookup hash).join

/-- The result of a request: empty without a handler. -/
def result (callmap : Callmap) (hash : ℕ) (body : Bytes) : Bytes :=
  ((bound callmap hash).map fun h => h body).getD []

theorem handle_eq (callmap : Callmap) {msg : Message} {body : Bytes}
    (hbody : msg.dataString = some body) :
    handle callmap msg [] = .ok ⟨result callmap msg.getHash body,
      (bound callmap msg.getHash).toList.map fun h => (h,body)⟩ := by
  unfold handle result bound
  cases callmap.lookup msg.getHash with
  | none => rfl
  | some handler =>
      cases handler with
      | none => rfl
      | some h => simp [hbody]

theorem bound_eq_some {callmap : Callmap} {hash : ℕ} {h : Bytes → Bytes} :
    bound callmap hash = some h ↔ callmap.lookup hash = some (some h) :=
  Option.join_eq_some_iff

/-- A sequence of `reghandler` calls. -/
def registered (H : Bytes → ℕ) (regs : List (Bytes × Handler)) (callmap : Callmap) : Callmap :=
  regs.foldl (fun d r => reghandler H r.1 r.2 d) callmap

section Lookup
variable {H : Bytes → ℕ}

theorem lookup_reghandler (name : Bytes) (handler : Handler) (callmap : Callmap) (k : ℕ) :
    (reghandler H name handler callmap).lookup k =
      (callmap.lookup k <|> if hashKey H name = k then some handler else none) := by
  unfold reghandler
  split_ifs with hmem hk hk
  · subst hk
    obtain ⟨old,hold⟩ := Option.isSome_iff_exists.mp (AList.lookup_isSome.mpr hmem)
    rw [hold]
    rfl
  · cases callmap.lookup k <;> rfl
  · subst hk
    rw [AList.lookup_insert,AList.lookup_eq_none.mpr hmem]
    rfl
  · rw [AList.lookup_insert_ne (Ne.symm hk)]
    cases callmap.lookup k <;> rfl

/-- The first registration under a key is the one that stays. -/
theorem lookup_registered (regs : List (Bytes × Handler)) (callmap : Callmap) (k : ℕ) :
    (registered H regs callmap).lookup k =
      (callmap.lookup k <|> (regs.find? fun r => hashKey H r.1 = k).map Prod.snd) := by
  induction regs generalizing callmap with
  | nil => simp [registered]
  | cons r regs ih =>
      change (registered H regs (reghandler H r.1 r.2 callmap)).lookup k = _
      rw [ih,lookup_reghandler]
      cases callmap.lookup k with
      | some h => rfl
      | none =>
          by_cases hk : hashKey H r.1 = k
          · rw [if_pos hk,List.find?_cons_of_pos (by simpa using hk)]
            rfl
          · rw [if_neg hk,List.find?_cons_of_neg (by simpa using hk)]
            rfl

/-- The handler a name is routed to. -/
theorem bound_registered (regs : List (Bytes × Handler)) (name : Bytes) :
    bound (registered H regs ∅) (hashKey H name) = (route (hashKey H) regs name).join := by
  rw [bound,lookup_registered]
  rfl

end Lookup
end SindiaRpc.DispatcherTable
