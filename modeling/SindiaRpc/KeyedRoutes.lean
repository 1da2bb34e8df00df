import Mathlib.Data.List.Find

/-!
# Routing by a key of the name

Names are registered with a target and known by a key only. A name is routed to
the first entry with its key, so what a further registration adds never hides
an entry. Where no other name has the key, the route is that of the name.
-/
namespace SindiaRpc.KeyedRoutes

variable {ν α κ : Type*} [DecidableEq κ] (key : ν → κ)

/-- The first target registered under the key of `n`. -/
def route (regs : List (ν × α)) (n : ν) : Option α :=
  (regs.find? fun r => key r.1 = key n).map Prod.snd

/-- `n` shares its key with no other name of the list. -/
def Unshared (regs : List (ν × α)) (n : ν) : Prop := ∀ r ∈ regs, key r.1 = key n → r.1 = n

variable {key} {regs : List (ν × α)} {n : ν} {a : α}

/-- A registered name keeps its route. -/
theorem route_append (hn : n ∈ regs.map Prod.fst) (more : List (ν × α)) :
    route key (regs ++ more) n = route key regs n := by
  obtain ⟨r,hr,hname⟩ := List.mem_map.mp hn
  have hsome : (regs.find? fun r => key r.1 = key n).isSome := by
    rw [List.find?_isSome]
    exact ⟨r,hr,by simp [hname]⟩
  rw [route,List.find?_append,Option.or_of_isSome hsome]
  rfl

theorem mem_of_route (h : Unshared key regs n) (hr : route key regs n = some a) :
    (n,a) ∈ regs := by
  obtain ⟨r,hfind,rfl⟩ := Option.map_eq_some_iff.mp hr
  have hmem := List.mem_of_find?_eq_some hfind
  have hkey : key r.1 = key n := by simpa using List.find?_some hfind
  rw [← h r hmem hkey]
  exact hmem

/-- With a key of its own, a name is routed to its first registration. -/
theorem route_unshared [DecidableEq ν] (h : Unshared key regs n) :
    route key regs n = (regs.find? fun r => r.1 = n).map Prod.snd := by
  rw [route]
  congr 1
  apply List.find?_congr
  intro r hr
  have hiff : key r.1 = key n ↔ r.1 = n := ⟨h r hr,congrArg key⟩
  simp [hiff]

theorem route_once [DecidableEq ν] (h : Unshared key regs n)
    (honce : regs.filter (fun r => r.1 = n) = [(n,a)]) : route key regs n = some a := by
  rw [route_unshared h,← List.head?_filter,honce]
  rfl

end SindiaRpc.KeyedRoutes
