import Mathlib.Data.List.Forall2

/-!
Lists that are mapped by a function that may fail.
-/

namespace ContractHost

theorem mapM_eq_some_iff {α β : Type} {f : α → Option β} {l : List α} {m : List β} :
    l.mapM f = some m ↔ List.Forall₂ (fun a b => f a = some b) l m := by
  induction l generalizing m with
  | nil => simp [eq_comm]
  | cons a rest ih =>
      simp only [List.mapM_cons, Option.bind_eq_bind, Option.bind_eq_some_iff, ih,
        List.forall₂_cons_left_iff]
      constructor
      · rintro ⟨b, first, bs, others, eq⟩
        cases eq
        exact ⟨b, bs, first, others, rfl⟩
      · rintro ⟨b, bs, first, others, rfl⟩
        exact ⟨b, first, bs, others, rfl⟩

theorem exists_of_mapM_eq_some {α β : Type} {f : α → Option β} {l : List α} {m : List β}
    (all : l.mapM f = some m) {a : α} (mem : a ∈ l) : ∃ b ∈ m, f a = some b := by
  induction mapM_eq_some_iff.1 all with
  | nil => cases mem
  | @cons _ b _ m first others ih =>
      rcases List.mem_cons.1 mem with rfl | mem
      · exact ⟨b, List.mem_cons_self, first⟩
      · obtain ⟨b, mem, maps⟩ := ih (mapM_eq_some_iff.2 others) mem
        exact ⟨b, List.mem_cons_of_mem _ mem, maps⟩

theorem mapM_eq_none {α β : Type} {f : α → Option β} {l : List α} {a : α} (mem : a ∈ l)
    (fails : f a = none) : l.mapM f = none := by
  refine Option.eq_none_iff_forall_ne_some.2 fun m all => ?_
  obtain ⟨b, -, maps⟩ := exists_of_mapM_eq_some all mem
  rw [fails] at maps
  cases maps

theorem mapM_map_eq_some {α β γ : Type} {f : β → Option γ} {g : α → β} {h : α → γ} {l : List α}
    (each : ∀ a ∈ l, f (g a) = some (h a)) : (l.map g).mapM f = some (l.map h) := by
  induction l with
  | nil => rfl
  | cons a rest ih =>
      obtain ⟨first, others⟩ := List.forall_mem_cons.1 each
      simp [first, ih others]

theorem mapM_map_of_inverse {α β : Type} {f : β → Option α} {g : α → β} {l : List α}
    (inverse : ∀ a ∈ l, f (g a) = some a) : (l.map g).mapM f = some l := by
  rw [mapM_map_eq_some (h := id) inverse, List.map_id]

end ContractHost
