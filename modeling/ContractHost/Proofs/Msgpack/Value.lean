import ContractHost.Proofs.Msgpack.Tree
import ContractHost.Proofs.Wire.Value

/-!
What MessagePack bytes say. A document that is short enough is written as bytes that say the same
(`value?_write`).
-/

namespace ContractHost.Msgpack

mutual

/-- The value of a tree, if it has no single-precision number, no extension, and only texts for
names. -/
def Tree.value? : Tree → Option Value
  | .nil => some .null
  | .bool b => some (.bool b)
  | .uint n => some (.int n)
  | .sint i => some (.int i)
  | .single _ => none
  | .double bits => some (.double bits)
  | .str b => (Bytes.text? b).map .text
  | .bin b => some (.bytes b)
  | .array items => (itemValues? items).map .list
  | .map entries => (entryValues? entries).map .ofMembers
  | .ext _ _ => none

def itemValues? : List Tree → Option (List Value)
  | [] => some []
  | t :: rest => do return (← t.value?) :: (← itemValues? rest)

def entryValues? : List (Tree × Tree) → Option (List (String × Value))
  | [] => some []
  | (.str k, t) :: rest => do return (← Bytes.text? k, ← t.value?) :: (← entryValues? rest)
  | _ :: _ => none

end

/-- The value that bytes say from the first to the last. -/
def value? (b : Bytes) : Option Value :=
  match Tree.read b with
  | some (t, []) => t.value?
  | _ => none

mutual

theorem value?_treeOf : ∀ d : Doc, (treeOf d).value? = some d.value
  | .null | .bool _ | .double _ | .bytes _ => rfl
  | .int i => by
    unfold treeOf
    split
    · next sign =>
      have same : (i.toNat : Int) = i := Int.toNat_of_nonneg sign
      rw [Tree.value?, same, Doc.value]
    · rfl
  | .text s => by rw [treeOf, Tree.value?, Bytes.text?_ofText, Option.map_some, Doc.value]
  | .list items => by
    rw [treeOf, Tree.value?, itemValues?_treesOf, Option.map_some, Doc.value]
  | .map entries => by
    rw [treeOf, Tree.value?, entryValues?_entryTreesOf, Option.map_some, Doc.value]

theorem itemValues?_treesOf : ∀ items : List Doc,
    itemValues? (treesOf items) = some (Doc.itemValues items)
  | [] => rfl
  | d :: items => by
    simp [treesOf, itemValues?, value?_treeOf d, itemValues?_treesOf items, Doc.itemValues]

theorem entryValues?_entryTreesOf : ∀ entries : List (String × Doc),
    entryValues? (entryTreesOf entries) = some (Doc.entryValues entries)
  | [] => rfl
  | (k, d) :: entries => by
    simp [entryTreesOf, entryValues?, value?_treeOf d, entryValues?_entryTreesOf entries,
      Doc.entryValues]

end

theorem value?_write {d : Doc} (short : d.Short) (words : d.Words) (nested : d.depth ≤ maxDepth) :
    value? (write d) = some d.value := by
  have read := readTree_write (fun e part => ⟨short e part, words e part⟩) nested []
  rw [List.append_nil] at read
  rw [value?, Tree.read, read]
  exact value?_treeOf d

/-- The length of a text is written in 32 bits at most, so that of 2^32 bytes is lost. -/
theorem readHead_writeStrHead_wrapped (rest : Bytes) :
    readHead (writeStrHead (2 ^ 32) ++ rest) = some (.str 0, rest) := by
  have length : readBE 4 0 (writeBE 4 (2 ^ 32) ++ rest) = some (0, rest) :=
    readBE_writeBE 4 0 _ rest
  have head : readHead (0xDB :: (writeBE 4 (2 ^ 32) ++ rest)) =
      (readBE 4 0 (writeBE 4 (2 ^ 32) ++ rest)).map fun read => (Head.str read.1, read.2) := rfl
  have form : writeStrHead (2 ^ 32) = 0xDB :: writeBE 4 (2 ^ 32) := rfl
  rw [form, List.cons_append, head, length, Option.map_some]

section Wrapped

variable {k s : String}

theorem readTree_writeText_wrapped (long : (Bytes.ofText s).length = 2 ^ 32) (depth : Nat) :
    readTree depth (writeText s) = some (.str [], Bytes.ofText s) := by
  have head := readHead_writeStrHead_wrapped (Bytes.ofText s)
  rw [← long] at head
  rw [writeText]
  cases depth <;> simp [readTree, head, Bytes.split?]

theorem readTree_write_wrapped (name : (Bytes.ofText k).length < 2 ^ 32)
    (long : (Bytes.ofText s).length = 2 ^ 32) (depth : Nat) :
    readTree (depth + 1) (write (.map [(k, .text s)])) =
      some (.map [(.str (Bytes.ofText k), .str [])], Bytes.ofText s) := by
  have head := readHead_writeMapHead (n := 1) (by decide) (writeText k ++ writeText s)
  have key := readTree_writeText name depth (writeText s)
  simp [write, writeEntries, readTree, head, readMany, readEntry, key,
    readTree_writeText_wrapped long]

theorem value?_write_wrapped (name : (Bytes.ofText k).length < 2 ^ 32)
    (long : (Bytes.ofText s).length = 2 ^ 32) : value? (write (.map [(k, .text s)])) = none := by
  obtain ⟨b, rest, filled⟩ := List.exists_cons_of_ne_nil (List.ne_nil_of_length_pos
    (by omega : 0 < (Bytes.ofText s).length))
  have read : Tree.read (write (.map [(k, .text s)])) = _ := readTree_write_wrapped name long 1022
  rw [value?, read, filled]

end Wrapped

end ContractHost.Msgpack
