import ContractHost.Msgpack.Tree
import ContractHost.Proofs.Msgpack.Head
import ContractHost.Proofs.Wire.Shape

/-!
A document written as MessagePack is read as one tree, whatever stands behind it
(`readTree_write`), and the tree is taken for that document (`renders`).
-/

namespace ContractHost.Msgpack

mutual

def treeOf : Doc → Tree
  | .null => .nil
  | .bool b => .bool b
  | .int i => if 0 ≤ i then .uint i.toNat else .sint i
  | .double bits => .double bits
  | .text s => .str (Bytes.ofText s)
  | .bytes b => .bin b
  | .list items => .array (treesOf items)
  | .map entries => .map (entryTreesOf entries)

def treesOf : List Doc → List Tree
  | [] => []
  | d :: rest => treeOf d :: treesOf rest

def entryTreesOf : List (String × Doc) → List (Tree × Tree)
  | [] => []
  | (k, d) :: rest => (.str (Bytes.ofText k), treeOf d) :: entryTreesOf rest

end

theorem treesOf_eq_map (items : List Doc) : treesOf items = items.map treeOf := by
  induction items with
  | nil => rfl
  | cons d rest ih => rw [treesOf, ih, List.map_cons]

theorem entryTreesOf_eq_map (entries : List (String × Doc)) :
    entryTreesOf entries = entries.map fun e => (.str (Bytes.ofText e.1), treeOf e.2) := by
  induction entries with
  | nil => rfl
  | cons e rest ih => rw [entryTreesOf, ih, List.map_cons]

theorem readTree_writeText {s : String} (short : (Bytes.ofText s).length < 2 ^ 32) (depth : Nat)
    (rest : Bytes) :
    readTree depth (writeText s ++ rest) = some (.str (Bytes.ofText s), rest) := by
  rw [writeText, List.append_assoc]
  cases depth <;> simp [readTree, readHead_writeStrHead short]

/-- What a document needs to be written: lengths below 2^32 and integers of 64 bits. -/
def Fits (d : Doc) : Prop := d.ShortHere ∧ d.WordHere

mutual

/-- A document that fits is read back from what was written, and what stands behind it is left. -/
theorem readTree_write : ∀ {d : Doc} {depth : Nat}, (∀ e ∈ d.parts, Fits e) → d.depth ≤ depth →
    ∀ rest, readTree depth (write d ++ rest) = some (treeOf d, rest)
  | .null, depth, _, _, rest => by cases depth <;> rfl
  | .bool false, depth, _, _, rest => by cases depth <;> rfl
  | .bool true, depth, _, _, rest => by cases depth <;> rfl
  | .int i, depth, fits, _, rest => by
    obtain ⟨least, most⟩ := (fits _ List.mem_cons_self).2
    have head : readHead (write (.int i) ++ rest) = _ := readHead_writeInt least most rest
    by_cases sign : 0 ≤ i
    all_goals
      simp only [intHead, sign, if_true, if_false] at head
      cases depth <;> simp [readTree, treeOf, head, sign]
  | .double bits, depth, _, _, rest => by
    have head : readHead (write (.double bits) ++ rest) = some (.double bits, rest) := by
      have read := readHead_sized (m := 0xCB) rfl rfl (n := bits.toNat) bits.toNat_lt rest
      rw [UInt64.ofNat_toNat] at read
      exact read
    cases depth <;> simp [readTree, head, treeOf]
  | .text s, depth, fits, _, rest => readTree_writeText (fits _ List.mem_cons_self).1 depth rest
  | .bytes b, depth, fits, _, rest => by
    have short : b.length < 2 ^ 32 := (fits _ List.mem_cons_self).1
    cases depth <;> simp [readTree, write, readHead_writeBinHead short, treeOf]
  | .list items, 0, _, deep, _ => absurd deep (Nat.not_succ_le_zero _)
  | .list items, depth + 1, fits, deep, rest => by
    obtain ⟨⟨short, -⟩, within⟩ := List.forall_mem_cons.1 fits
    have read := readMany_writeItems within (Nat.le_of_succ_le_succ deep) [] rest
    simp only [write, List.append_assoc, readTree, readHead_writeArrayHead short, read, treeOf,
      List.reverse_nil, List.nil_append, Option.map_some]
  | .map entries, 0, _, deep, _ => absurd deep (Nat.not_succ_le_zero _)
  | .map entries, depth + 1, fits, deep, rest => by
    obtain ⟨⟨⟨short, keys⟩, -⟩, within⟩ := List.forall_mem_cons.1 fits
    have read := readMany_writeEntries keys within (Nat.le_of_succ_le_succ deep) [] rest
    simp only [write, List.append_assoc, readTree, readHead_writeMapHead short, read, treeOf,
      List.reverse_nil, List.nil_append, Option.map_some]

theorem readMany_writeItems : ∀ {items : List Doc} {depth : Nat},
    (∀ e ∈ Doc.itemsParts items, Fits e) → Doc.itemsDepth items ≤ depth → ∀ found rest,
      readMany (readTree depth) items.length found (writeItems items ++ rest) =
        some (found.reverse ++ treesOf items, rest)
  | [], _, _, _, found, rest => by simp [readMany, writeItems, treesOf]
  | d :: items, depth, fits, deep, found, rest => by
    obtain ⟨here, others⟩ := List.forall_mem_append.1 fits
    obtain ⟨first, more⟩ := Nat.max_le.1 deep
    have read := readMany_writeItems others more (treeOf d :: found) rest
    simp only [List.length_cons, readMany, writeItems, List.append_assoc,
      readTree_write here first, read, treesOf, List.reverse_cons, List.singleton_append]

theorem readMany_writeEntries : ∀ {entries : List (String × Doc)} {depth : Nat},
    (∀ e ∈ entries, (Bytes.ofText e.1).length < 2 ^ 32) →
    (∀ e ∈ Doc.entriesParts entries, Fits e) → Doc.entriesDepth entries ≤ depth → ∀ found rest,
      readMany (readEntry (readTree depth)) entries.length found (writeEntries entries ++ rest) =
        some (found.reverse ++ entryTreesOf entries, rest)
  | [], _, _, _, _, found, rest => by simp [readMany, writeEntries, entryTreesOf]
  | (k, d) :: entries, depth, keys, fits, deep, found, rest => by
    obtain ⟨key, keys⟩ := List.forall_mem_cons.1 keys
    obtain ⟨here, others⟩ := List.forall_mem_append.1 fits
    obtain ⟨first, more⟩ := Nat.max_le.1 deep
    have read := readMany_writeEntries keys others more
      ((.str (Bytes.ofText k), treeOf d) :: found) rest
    simp only [List.length_cons, readMany, readEntry, writeEntries, List.append_assoc,
      readTree_writeText key, readTree_write here first, read, entryTreesOf, List.reverse_cons,
      List.singleton_append]

end

theorem renders : format.Renders treeOf where
  isNull_null := rfl
  isNull_other {d} filled _ := by
    cases d with
    | null => exact absurd rfl filled
    | int i => unfold treeOf; split <;> rfl
    | _ => rfl
  bool? _ := rfl
  nat? {n} _ := by simp [format, treeOf, Tree.nat?]
  text? s := Bytes.text?_ofText s
  bytes? _ := rfl
  items? items := congrArg some (treesOf_eq_map items)
  entries? entries := by
    show Tree.entries? (.map (entryTreesOf entries)) = _
    rw [entryTreesOf_eq_map, Tree.entries?]
    refine mapM_map_eq_some fun e _ => ?_
    simp [Tree.text?]
  fields? {names entries} known := by
    show Tree.fields? names (.map (entryTreesOf entries)) = _
    have each : ∀ e ∈ entries, Tree.fieldPair? names (.str (Bytes.ofText e.1), treeOf e.2) =
        some (some (names.idxOf e.1, treeOf e.2)) := by
      intro e mem
      have same : (fun s => decide (Bytes.ofText s = Bytes.ofText e.1)) = fun s => decide (s = e.1) := by
        funext s
        exact decide_eq_decide.2 ⟨Bytes.ofText_injective, congrArg Bytes.ofText⟩
      simp only [Tree.fieldPair?, Tree.fieldKey?, same, findIdx?_of_mem (known e mem)]
    rw [entryTreesOf_eq_map, Tree.fields?, mapM_map_eq_some each]
    simp [placed]

end ContractHost.Msgpack
