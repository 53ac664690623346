import ContractHost.Bytes
import ContractHost.Table

/-!
Where contracts keep their state. At the bottom are key-value stores in memory; over them stand
layers that put a prefix before every key, and overlays that hold writes back until they are
committed. The heap holds what can change: the stores, and what the overlays hold back. A layer is
then only a description of the way to a store, so two layers over one store see each other's
writes. An overlay is known by its name and by what it stands over, so none stands over itself.
-/

namespace ContractHost

abbrev Store := Table Bytes Bytes

/-- A change of the value under a key: the new value, or none if the key is to be deleted. -/
abbrev Change := Bytes × Option Bytes

/-- Writes that are held back: a new value for each key, or none for a key to be deleted. -/
abbrev Writes := Table Bytes (Option Bytes)

inductive Layer where
  /-- A store itself. -/
  | memory (name : String)
  /-- Puts a prefix before every key. -/
  | prefixed (before : Bytes) (inner : Layer)
  /-- Holds writes back. -/
  | overlay (name : String) (inner : Layer)
  deriving DecidableEq

namespace Layer

/-- What a layer is made of, from the outside in; the first byte of a part tells its kind. -/
def parts : Layer → List Bytes
  | .memory s => [0 :: Bytes.ofText s]
  | .prefixed p l => (1 :: p) :: l.parts
  | .overlay o l => (2 :: Bytes.ofText o) :: l.parts

theorem parts_injective {l m : Layer} (h : l.parts = m.parts) : l = m := by
  induction l generalizing m with
  | memory s =>
    cases m <;> simp [parts] at h
    rw [Bytes.ofText_injective h]
  | prefixed p l ih =>
    cases m <;> simp [parts] at h
    rw [h.1, ih h.2]
  | overlay o l ih =>
    cases m <;> simp [parts] at h
    rw [Bytes.ofText_injective h.1, ih h.2]

instance : Ord Layer := ⟨fun l m => compare l.parts m.parts⟩

instance : Std.TransOrd Layer where
  eq_swap := Std.OrientedOrd.eq_swap (α := List Bytes)
  isLE_trans := Std.TransOrd.isLE_trans (α := List Bytes)

instance : Std.LawfulEqOrd Layer where
  compare_self := Std.ReflOrd.compare_self (α := List Bytes)
  eq_of_compare h := parts_injective (Std.LawfulEqOrd.eq_of_compare (α := List Bytes) h)

end Layer

/-- The stores by name, and what each overlay holds back. A store or an overlay that was never
written to is empty. -/
structure Heap where
  stores : Table String Store
  overlays : Table Layer Writes

namespace Heap

def empty : Heap := ⟨∅, ∅⟩

def store (h : Heap) (name : String) : Store := (h.stores.get? name).getD ∅

def overlay (h : Heap) (l : Layer) : Writes := (h.overlays.get? l).getD ∅

def setStore (h : Heap) (name : String) (s : Store) : Heap :=
  { h with stores := h.stores.insert name s }

def setOverlay (h : Heap) (l : Layer) (w : Writes) : Heap :=
  { h with overlays := h.overlays.insert l w }

end Heap

namespace Layer

def get (h : Heap) : Layer → Bytes → Option Bytes
  | .memory s, k => (h.store s).get? k
  | .prefixed p l, k => l.get h (p ++ k)
  | .overlay o l, k => match (h.overlay (.overlay o l)).get? k with
    | some v => v
    | none => l.get h k

def put (h : Heap) : Layer → Bytes → Option Bytes → Heap
  | .memory s, k, v => h.setStore s ((h.store s).put k v)
  | .prefixed p l, k, v => l.put h (p ++ k) v
  | .overlay o l, k, v => h.setOverlay (.overlay o l) ((h.overlay (.overlay o l)).insert k v)

def putAll (l : Layer) (h : Heap) (changes : List Change) : Heap :=
  changes.foldl (fun h c => l.put h c.1 c.2) h

/-- Passes on what an overlay over a layer holds back, in ascending order of the keys, and says how
many writes that were. -/
def commit (h : Heap) (name : String) (inner : Layer) : Nat × Heap :=
  let held := h.overlay (.overlay name inner)
  (held.size, inner.putAll (h.setOverlay (.overlay name inner) ∅) held.entries)

/-- The layer that puts prefixes before every key, the last one nearest to the key. -/
def under (l : Layer) (prefixes : List Bytes) : Layer :=
  prefixes.foldl (fun l p => .prefixed p l) l

end Layer

end ContractHost
