import Mathlib.Data.List.Forall2

/-!
# Lists matched element by element

What a relation that holds between two lists, position by position, says about
their members, their sublists and repetitions among them.
-/
namespace SindiaRpc.MatchedLists

variable {α β γ : Type*} {R : α → β → Prop} {xs : List α} {ys zs : List β}

theorem exists_right (h : List.Forall₂ R xs ys) {x : α} (hx : x ∈ xs) : ∃ y ∈ ys, R x y := by
  induction h with
  | nil => cases hx
  | @cons a b _ _ hab _ ih =>
      rcases List.mem_cons.mp hx with rfl | hx
      · exact ⟨b,List.mem_cons_self,hab⟩
      · obtain ⟨y,hy,hxy⟩ := ih hx
        exact ⟨y,List.mem_cons_of_mem _ hy,hxy⟩

theorem exists_left (h : List.Forall₂ R xs ys) {y : β} (hy : y ∈ ys) : ∃ x ∈ xs, R x y :=
  exists_right h.flip hy

theorem map_eq {f : α → γ} {g : β → γ} (h : List.Forall₂ R xs ys)
    (hfg : ∀ x y, R x y → f x = g y) : xs.map f = ys.map g := by
  induction h with
  | nil => rfl
  | cons hxy _ ih => rw [List.map_cons,List.map_cons,hfg _ _ hxy,ih]

/-- If what `f` reads of the right element fixes the left one, `f` repeats
nothing where the left list does not. -/
theorem nodup_right (h : List.Forall₂ R xs ys) (hxs : xs.Nodup) (f : β → γ)
    (hf : ∀ x y x' y', R x y → R x' y' → f y = f y' → x = x') : (ys.map f).Nodup := by
  induction h with
  | nil => exact List.nodup_nil
  | @cons a b as bs hab hrest ih =>
      obtain ⟨hnot,hnodup⟩ := List.nodup_cons.mp hxs
      rw [List.map_cons,List.nodup_cons]
      refine ⟨?_,ih hnodup⟩
      intro hmem
      obtain ⟨y,hy,hfy⟩ := List.mem_map.mp hmem
      obtain ⟨x,hx,hxy⟩ := exists_left hrest hy
      obtain rfl := hf x y a b hxy hab hfy
      exact hnot hx

/-- One element changed on the right. -/
theorem set_right (h : List.Forall₂ R xs ys) {i : ℕ} {y y' : β} (hy : ys[i]? = some y)
    (hR : ∀ x, R x y → R x y') : List.Forall₂ R xs (ys.set i y') := by
  induction h generalizing i with
  | nil => cases hy
  | cons hxy hrest ih =>
      cases i with
      | zero =>
          cases hy
          exact .cons (hR _ hxy) hrest
      | succ i => exact .cons hxy (ih hy)

/-- What is left of one side is matched by what is left of the other. -/
theorem sublist_left (h : List.Forall₂ R xs ys) (hs : zs.Sublist ys) :
    ∃ ws, ws.Sublist xs ∧ List.Forall₂ R ws zs := by
  induction hs generalizing xs with
  | slnil => exact ⟨[],List.nil_sublist _,.nil⟩
  | cons y _ ih =>
      obtain ⟨x,as,_,hrest,rfl⟩ := List.forall₂_cons_right_iff.mp h
      obtain ⟨ws,hws,hmatch⟩ := ih hrest
      exact ⟨ws,hws.cons x,hmatch⟩
  | cons_cons y _ ih =>
      obtain ⟨x,as,hxy,hrest,rfl⟩ := List.forall₂_cons_right_iff.mp h
      obtain ⟨ws,hws,hmatch⟩ := ih hrest
      exact ⟨x :: ws,hws.cons_cons x,.cons hxy hmatch⟩

/-- What shows on the front of one side is matched by the front of the other. -/
theorem front_right (h : List.Forall₂ R xs ys) {f : β → γ} (hf : zs.map f <+: ys.map f) :
    ∃ ws, ws <+: xs ∧ List.Forall₂ (fun x z => ∃ y, R x y ∧ f z = f y) ws zs := by
  induction h generalizing zs with
  | nil =>
      rw [List.map_nil,List.prefix_nil,List.map_eq_nil_iff] at hf
      exact ⟨[],List.nil_prefix,hf ▸ .nil⟩
  | @cons x y xs ys hxy _ ih =>
      cases zs with
      | nil => exact ⟨[],List.nil_prefix,.nil⟩
      | cons z zs =>
          rw [List.map_cons,List.map_cons,List.cons_prefix_cons] at hf
          obtain ⟨ws,hws,hmatch⟩ := ih hf.2
          exact ⟨x :: ws,List.cons_prefix_cons.mpr ⟨rfl,hws⟩,.cons ⟨y,hxy,hf.1⟩ hmatch⟩

end SindiaRpc.MatchedLists
