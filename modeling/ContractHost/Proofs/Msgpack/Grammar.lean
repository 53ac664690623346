import ContractHost.Msgpack.Tree
import ContractHost.Proofs.Bytes
import ContractHost.Proofs.Msgpack.Head

/-!
The grammar of MessagePack, and the reader that follows it (`readTree_reads`).

A value has many forms: every number and every length may stand in each form that is
wide enough for it. The reader takes all of them, nothing else, and of a byte string
exactly the bytes of the value, whatever it holds and whatever stands behind it.
-/

namespace ContractHost.Msgpack

/-- The markers of heads whose number or length stands in further bytes: how many these are, and
what they make of the number in them. -/
def sizedForms : List (UInt8 × Nat × (Nat → Head)) :=
  [(0xC4, 1, .bin), (0xC5, 2, .bin), (0xC6, 4, .bin),
    (0xC7, 1, .ext), (0xC8, 2, .ext), (0xC9, 4, .ext),
    (0xCA, 4, fun n => .single (UInt32.ofNat n)), (0xCB, 8, fun n => .double (UInt64.ofNat n)),
    (0xCC, 1, .uint), (0xCD, 2, .uint), (0xCE, 4, .uint), (0xCF, 8, .uint),
    (0xD0, 1, fun n => .sint (signed 1 n)), (0xD1, 2, fun n => .sint (signed 2 n)),
    (0xD2, 4, fun n => .sint (signed 4 n)), (0xD3, 8, fun n => .sint (signed 8 n)),
    (0xD9, 1, .str), (0xDA, 2, .str), (0xDB, 4, .str),
    (0xDC, 2, .array), (0xDD, 4, .array),
    (0xDE, 2, .map), (0xDF, 4, .map)]

inductive Head.Spelled : Head → Bytes → Prop
  | nil : Spelled .nil [0xC0]
  | false : Spelled (.bool false) [0xC2]
  | true : Spelled (.bool true) [0xC3]
  | smallUint {n : Nat} (small : n < 128) : Spelled (.uint n) [UInt8.ofNat n]
  /-- The numbers from -32 to -1. -/
  | smallSint {n : Nat} (small : n < 32) : Spelled (.sint (n - 32)) [UInt8.ofNat (0xE0 + n)]
  | shortMap {n : Nat} (short : n < 16) : Spelled (.map n) [UInt8.ofNat (0x80 + n)]
  | shortArray {n : Nat} (short : n < 16) : Spelled (.array n) [UInt8.ofNat (0x90 + n)]
  | shortStr {n : Nat} (short : n < 32) : Spelled (.str n) [UInt8.ofNat (0xA0 + n)]
  /-- Extensions of 1, 2, 4, 8 and 16 bytes. -/
  | fixedExt {k : Nat} (known : k < 5) : Spelled (.ext (2 ^ k)) [UInt8.ofNat (0xD4 + k)]
  | sized {marker : UInt8} {k n : Nat} {make : Nat → Head} (known : (marker, k, make) ∈ sizedForms)
    (fits : n < 256 ^ k) : Spelled (make n) (marker :: writeBE k n)

mutual

inductive Tree.Spelled : Tree → Bytes → Prop
  | nil {b : Bytes} (head : Head.nil.Spelled b) : Tree.Spelled .nil b
  | bool {v : Bool} {b : Bytes} (head : (Head.bool v).Spelled b) : Tree.Spelled (.bool v) b
  | uint {n : Nat} {b : Bytes} (head : (Head.uint n).Spelled b) : Tree.Spelled (.uint n) b
  | sint {i : Int} {b : Bytes} (head : (Head.sint i).Spelled b) : Tree.Spelled (.sint i) b
  | single {bits : UInt32} {b : Bytes} (head : (Head.single bits).Spelled b) :
    Tree.Spelled (.single bits) b
  | double {bits : UInt64} {b : Bytes} (head : (Head.double bits).Spelled b) :
    Tree.Spelled (.double bits) b
  | str {s front : Bytes} (head : (Head.str s.length).Spelled front) :
    Tree.Spelled (.str s) (front ++ s)
  | bin {s front : Bytes} (head : (Head.bin s.length).Spelled front) :
    Tree.Spelled (.bin s) (front ++ s)
  | array {items : List Tree} {front b : Bytes} (head : (Head.array items.length).Spelled front)
    (inside : Bytes.InTurn Tree.Spelled items b) : Tree.Spelled (.array items) (front ++ b)
  | map {entries : List (Tree × Tree)} {front b : Bytes}
    (head : (Head.map entries.length).Spelled front)
    (inside : Bytes.InTurn EntrySpelled entries b) : Tree.Spelled (.map entries) (front ++ b)
  | ext {tag : UInt8} {data front : Bytes} (head : (Head.ext data.length).Spelled front) :
    Tree.Spelled (.ext tag data) (front ++ tag :: data)

inductive EntrySpelled : Tree × Tree → Bytes → Prop
  | mk {k v : Tree} {front back : Bytes} (key : Tree.Spelled k front)
    (value : Tree.Spelled v back) : EntrySpelled (k, v) (front ++ back)

end

mutual

def Tree.depth : Tree → Nat
  | .array items => itemsDepth items + 1
  | .map entries => entriesDepth entries + 1
  | .ext _ _ => 1
  | _ => 0

def itemsDepth : List Tree → Nat
  | [] => 0
  | t :: rest => max t.depth (itemsDepth rest)

def entriesDepth : List (Tree × Tree) → Nat
  | [] => 0
  | (k, v) :: rest => max (max k.depth v.depth) (entriesDepth rest)

end

theorem itemsDepth_le_iff {items : List Tree} {n : Nat} :
    itemsDepth items ≤ n ↔ ∀ t ∈ items, t.depth ≤ n := by
  induction items with
  | nil => simp [itemsDepth]
  | cons t rest ih => simp [itemsDepth, ih]

theorem entriesDepth_le_iff {entries : List (Tree × Tree)} {n : Nat} :
    entriesDepth entries ≤ n ↔ ∀ e ∈ entries, e.1.depth ≤ n ∧ e.2.depth ≤ n := by
  induction entries with
  | nil => simp [entriesDepth]
  | cons e rest ih => simp [entriesDepth, ih, and_assoc]

section Heads

theorem lookup_cons_ite {α β : Type} [DecidableEq α] (a k : α) (b : β) (l : List (α × β)) :
    ((k, b) :: l).lookup a = if a = k then some b else l.lookup a := by
  by_cases same : a = k
  · simp [same]
  · have differ : (a == k) = false := beq_false_of_ne same
    rw [List.lookup_cons, differ, if_neg same]

theorem sized?_eq_lookup (m : Nat) :
    Head.sized? m = (sizedForms.map fun form => (form.1.toNat, form.2)).lookup m := by
  simp only [sizedForms, List.map_cons, List.map_nil, lookup_cons_ite]
  rfl

theorem mem_of_sized? {m : UInt8} {k : Nat} {make : Nat → Head}
    (sized : Head.sized? m.toNat = some (k, make)) : (m, k, make) ∈ sizedForms := by
  rw [sized?_eq_lookup] at sized
  obtain ⟨before, after, found, -⟩ := List.lookup_eq_some_iff.1 sized
  have mem : (m.toNat, k, make) ∈ sizedForms.map fun form => (form.1.toNat, form.2) := by
    simp [found]
  obtain ⟨⟨marker, form⟩, known, same⟩ := List.mem_map.1 mem
  obtain ⟨number, rfl⟩ := Prod.mk.inj same
  exact UInt8.toNat_inj.1 number ▸ known

theorem sized?_of_mem {marker : UInt8} {k : Nat} {make : Nat → Head}
    (known : (marker, k, make) ∈ sizedForms) :
    Head.short? marker.toNat = none ∧ Head.sized? marker.toNat = some (k, make) := by
  have each : ∀ form ∈ sizedForms, Head.short? form.1.toNat = none ∧
      Head.sized? form.1.toNat = some form.2 := by
    simp [sizedForms, Head.short?, Head.sized?]
  exact each _ known

theorem eq_of_ite_eq_some {α : Type} {c : Prop} [Decidable c] {a b : α} {o : Option α}
    (found : (if c then some a else o) = some b) : (c ∧ a = b) ∨ (¬ c ∧ o = some b) := by
  split at found
  · next here => exact .inl ⟨here, Option.some.inj found⟩
  · next past => exact .inr ⟨past, found⟩

theorem spelled_of_short? {m : UInt8} {h : Head} (short : Head.short? m.toNat = some h) :
    h.Spelled [m] := by
  have small : m.toNat < 256 := m.toNat_lt
  have of_marker {n : Nat} {h : Head} (spelled : h.Spelled [UInt8.ofNat n])
      (marker : m.toNat = n) : h.Spelled [m] := by
    rwa [← marker, UInt8.ofNat_toNat] at spelled
  unfold Head.short? at short
  obtain ⟨range, rfl⟩ | ⟨past, short⟩ := eq_of_ite_eq_some short
  · exact of_marker (.smallUint range) rfl
  obtain ⟨range, rfl⟩ | ⟨past, short⟩ := eq_of_ite_eq_some short
  · exact of_marker (.shortMap (by omega)) (by omega)
  obtain ⟨range, rfl⟩ | ⟨past, short⟩ := eq_of_ite_eq_some short
  · exact of_marker (.shortArray (by omega)) (by omega)
  obtain ⟨range, rfl⟩ | ⟨past, short⟩ := eq_of_ite_eq_some short
  · exact of_marker (.shortStr (by omega)) (by omega)
  obtain ⟨marker, rfl⟩ | ⟨-, short⟩ := eq_of_ite_eq_some short
  · exact of_marker .nil marker
  obtain ⟨marker, rfl⟩ | ⟨-, short⟩ := eq_of_ite_eq_some short
  · exact of_marker .false marker
  obtain ⟨marker, rfl⟩ | ⟨-, short⟩ := eq_of_ite_eq_some short
  · exact of_marker .true marker
  obtain ⟨marker, rfl⟩ | ⟨-, short⟩ := eq_of_ite_eq_some short
  · exact of_marker (.fixedExt (k := 0) (by decide)) marker
  obtain ⟨marker, rfl⟩ | ⟨-, short⟩ := eq_of_ite_eq_some short
  · exact of_marker (.fixedExt (k := 1) (by decide)) marker
  obtain ⟨marker, rfl⟩ | ⟨-, short⟩ := eq_of_ite_eq_some short
  · exact of_marker (.fixedExt (k := 2) (by decide)) marker
  obtain ⟨marker, rfl⟩ | ⟨-, short⟩ := eq_of_ite_eq_some short
  · exact of_marker (.fixedExt (k := 3) (by decide)) marker
  obtain ⟨marker, rfl⟩ | ⟨-, short⟩ := eq_of_ite_eq_some short
  · exact of_marker (.fixedExt (k := 4) (by decide)) marker
  obtain ⟨range, rfl⟩ | ⟨-, short⟩ := eq_of_ite_eq_some short
  · have number : (m.toNat : Int) - 256 = ((m.toNat - 0xE0 : Nat) : Int) - 32 := by omega
    rw [number]
    exact of_marker (.smallSint (by omega)) (by omega)
  · cases short

theorem writeBE_mul_add (k high low : Nat) : writeBE k (high * 256 ^ k + low) = writeBE k low := by
  induction k generalizing high low with
  | zero => rfl
  | succ k ih =>
      have split : high * 256 ^ (k + 1) + low = high * 256 * 256 ^ k + low := by ring
      have byte : (high * 256 * 256 ^ k + low) / 256 ^ k = low / 256 ^ k + 256 * high := by
        rw [Nat.add_comm, Nat.add_mul_div_right _ _ (Nat.pow_pos (by decide)), Nat.mul_comm high]
      have same : UInt8.ofNat (low / 256 ^ k + 256 * high) = UInt8.ofNat (low / 256 ^ k) := by
        rw [← UInt8.toNat_inj, UInt8.toNat_ofNat', UInt8.toNat_ofNat', Nat.add_mul_mod_self_left]
      rw [split, writeBE_succ, writeBE_succ, byte, same, ih]

theorem eq_writeBE_of_readBE {k acc n : Nat} {b rest : Bytes}
    (read : readBE k acc b = some (n, rest)) :
    ∃ low < 256 ^ k, b = writeBE k low ++ rest ∧ n = acc * 256 ^ k + low := by
  induction k generalizing acc b with
  | zero =>
      cases read
      exact ⟨0, by decide, rfl, by omega⟩
  | succ k ih =>
      cases b with
      | nil => cases read
      | cons x b =>
          obtain ⟨low, fits, rfl, rfl⟩ := ih read
          refine ⟨x.toNat * 256 ^ k + low, ?_, ?_, by ring⟩
          · calc x.toNat * 256 ^ k + low < (x.toNat + 1) * 256 ^ k := by rw [Nat.succ_mul]; omega
              _ ≤ 256 * 256 ^ k := Nat.mul_le_mul_right _ x.toNat_lt
              _ = 256 ^ (k + 1) := Nat.pow_succ'.symm
          · have high : (x.toNat * 256 ^ k + low) / 256 ^ k = x.toNat := by
              rw [Nat.add_comm, Nat.add_mul_div_right _ _ (Nat.pow_pos (by decide)),
                Nat.div_eq_of_lt fits, Nat.zero_add]
            rw [writeBE_succ, high, writeBE_mul_add, UInt8.ofNat_toNat, List.cons_append]

theorem readHead_of_spelled {h : Head} {front : Bytes} (spelled : h.Spelled front) (rest : Bytes) :
    readHead (front ++ rest) = some (h, rest) := by
  cases spelled with
  | nil | false | true => rfl
  | @smallUint n small =>
      refine readHead_short ?_ rest
      rw [UInt8.toNat_ofNat_of_lt' (by omega : n < 256), Head.short?, if_pos small]
  | @smallSint n small =>
      refine readHead_short ?_ rest
      rw [toNat_ofNat_add (by omega), short?_of_negative (by omega)]
      congr 2
      omega
  | shortMap short =>
      refine readHead_short ?_ rest
      rw [toNat_ofNat_add (by omega), short?_map short]
  | shortArray short =>
      refine readHead_short ?_ rest
      rw [toNat_ofNat_add (by omega), short?_array short]
  | shortStr short =>
      refine readHead_short ?_ rest
      rw [toNat_ofNat_add (by omega), short?_str short]
  | fixedExt known =>
      refine readHead_short ?_ rest
      rw [toNat_ofNat_add (by omega), short?_ext known]
  | sized known fits =>
      obtain ⟨long, sized⟩ := sized?_of_mem known
      exact readHead_sized long sized fits rest

/-- A head is read in any of its forms, and nothing else is read as a head. -/
theorem readHead_reads : Bytes.Reads readHead Head.Spelled := by
  intro b h rest
  constructor
  · intro read
    cases b with
    | nil => cases read
    | cons m b =>
        simp only [readHead] at read
        split at read
        · next short =>
            cases read
            exact ⟨[m], rfl, spelled_of_short? short⟩
        split at read
        · cases read
        · next k make sized =>
            obtain ⟨⟨n, r⟩, number, same⟩ := Option.map_eq_some_iff.1 read
            cases same
            obtain ⟨low, fits, rfl, rfl⟩ := eq_writeBE_of_readBE number
            rw [Nat.zero_mul, Nat.zero_add]
            exact ⟨m :: writeBE k low, rfl, .sized (mem_of_sized? sized) fits⟩
  · rintro ⟨front, rfl, spelled⟩
    exact readHead_of_spelled spelled rest

end Heads

section Many

variable {α : Type} {read : Bytes → Option (α × Bytes)} {spelled : α → Bytes → Prop}

/-- A reader of many items takes as many as it is told to, one behind the other. -/
theorem readMany_eq_some_iff (reads : Bytes.Reads read spelled) {n : Nat} {found all : List α}
    {b rest : Bytes} : readMany read n found b = some (all, rest) ↔
      ∃ xs front, all = found.reverse ++ xs ∧ xs.length = n ∧ b = front ++ rest ∧
        Bytes.InTurn spelled xs front := by
  induction n generalizing found b with
  | zero =>
      constructor
      · intro done
        cases done
        exact ⟨[], [], by simp, rfl, rfl, .nil⟩
      · rintro ⟨xs, front, rfl, none, rfl, inTurn⟩
        cases List.length_eq_zero_iff.1 none
        cases inTurn
        simp [readMany]
  | succ n ih =>
      constructor
      · intro done
        simp only [readMany] at done
        split at done
        · cases done
        · next x b' first =>
            obtain ⟨front, rfl, here⟩ := (reads _ _ _).1 first
            obtain ⟨xs, others, rfl, rfl, rfl, inTurn⟩ := ih.1 done
            exact ⟨x :: xs, front ++ others, by simp, rfl, by simp, .cons here inTurn⟩
      · rintro ⟨xs, front, rfl, many, rfl, inTurn⟩
        cases inTurn with
        | nil => cases many
        | @cons x xs front others first inTurn =>
            rw [readMany, List.append_assoc, reads.append first]
            exact ih.2 ⟨xs, others, by simp, Nat.succ.inj many, rfl, inTurn⟩

theorem readMany_reads (reads : Bytes.Reads read spelled) (n : Nat) :
    Bytes.Reads (readMany read n []) fun xs b => xs.length = n ∧ Bytes.InTurn spelled xs b := by
  intro b xs rest
  rw [readMany_eq_some_iff reads]
  constructor
  · rintro ⟨xs, front, rfl, many, rfl, inTurn⟩
    exact ⟨front, rfl, many, inTurn⟩
  · rintro ⟨front, rfl, many, inTurn⟩
    exact ⟨xs, front, rfl, many, rfl, inTurn⟩

end Many

section Trees

theorem readEntry_reads {read : Bytes → Option (Tree × Bytes)} {p : Tree → Prop}
    (reads : Bytes.Reads read fun t b => t.Spelled b ∧ p t) :
    Bytes.Reads (readEntry read) fun e b => EntrySpelled e b ∧ p e.1 ∧ p e.2 := by
  intro b e rest
  constructor
  · intro done
    simp only [readEntry] at done
    split at done
    · cases done
    · next k _ first =>
        split at done
        · cases done
        · next v _ second =>
            cases done
            obtain ⟨front, rfl, key, keyHas⟩ := (reads _ _ _).1 first
            obtain ⟨back, rfl, value, valueHas⟩ := (reads _ _ _).1 second
            exact ⟨front ++ back, by simp, .mk key value, keyHas, valueHas⟩
  · rintro ⟨front, rfl, ⟨key, value⟩, keyHas, valueHas⟩
    simp only [readEntry, List.append_assoc, reads.append ⟨key, keyHas⟩,
      reads.append ⟨value, valueHas⟩]

section Step

variable {depth : Nat}
  (inside : ∀ d < depth, Bytes.Reads (readTree d) fun t b => t.Spelled b ∧ t.depth ≤ d)

include inside

theorem spelled_of_readTree {b rest : Bytes} {t : Tree} (read : readTree depth b = some (t, rest)) :
    ∃ front, b = front ++ rest ∧ t.Spelled front ∧ t.depth ≤ depth := by
  rw [readTree] at read
  split at read
  · cases read
  next head after found =>
  obtain ⟨front, rfl, spelled⟩ := (readHead_reads _ _ _).1 found
  cases head with
  | nil =>
      cases read
      exact ⟨front, rfl, .nil spelled, Nat.zero_le _⟩
  | bool v =>
      cases read
      exact ⟨front, rfl, .bool spelled, Nat.zero_le _⟩
  | uint n =>
      cases read
      exact ⟨front, rfl, .uint spelled, Nat.zero_le _⟩
  | sint i =>
      cases read
      exact ⟨front, rfl, .sint spelled, Nat.zero_le _⟩
  | single bits =>
      cases read
      exact ⟨front, rfl, .single spelled, Nat.zero_le _⟩
  | double bits =>
      cases read
      exact ⟨front, rfl, .double spelled, Nat.zero_le _⟩
  | str n =>
      obtain ⟨⟨s, _⟩, cut, same⟩ := Option.map_eq_some_iff.1 read
      cases same
      obtain ⟨rfl, rfl⟩ := Bytes.split?_eq_some_iff.1 cut
      exact ⟨front ++ s, by simp, .str spelled, Nat.zero_le _⟩
  | bin n =>
      obtain ⟨⟨s, _⟩, cut, same⟩ := Option.map_eq_some_iff.1 read
      cases same
      obtain ⟨rfl, rfl⟩ := Bytes.split?_eq_some_iff.1 cut
      exact ⟨front ++ s, by simp, .bin spelled, Nat.zero_le _⟩
  | array n =>
      cases depth with
      | zero => cases read
      | succ d =>
          obtain ⟨_, many, same⟩ := Option.map_eq_some_iff.1 read
          cases same
          -- the items are read by a reader that goes one level less deep
          obtain ⟨inner, rfl, rfl, inTurn⟩ :=
            (readMany_reads (inside d d.lt_succ_self) n _ _ _).1 many
          obtain ⟨spelledInside, shallow⟩ := Bytes.inTurn_and_iff.1 inTurn
          exact ⟨front ++ inner, by simp, .array spelled spelledInside,
            Nat.succ_le_succ (itemsDepth_le_iff.2 shallow)⟩
  | map n =>
      cases depth with
      | zero => cases read
      | succ d =>
          obtain ⟨_, many, same⟩ := Option.map_eq_some_iff.1 read
          cases same
          obtain ⟨inner, rfl, rfl, inTurn⟩ :=
            (readMany_reads (readEntry_reads (inside d d.lt_succ_self)) n _ _ _).1 many
          obtain ⟨spelledInside, shallow⟩ := Bytes.inTurn_and_iff.1 inTurn
          exact ⟨front ++ inner, by simp, .map spelled spelledInside,
            Nat.succ_le_succ (entriesDepth_le_iff.2 shallow)⟩
  | ext n =>
      cases depth with
      | zero => cases read
      | succ d =>
          cases after with
          | nil => cases read
          | cons tag after =>
              obtain ⟨⟨data, _⟩, cut, same⟩ := Option.map_eq_some_iff.1 read
              cases same
              obtain ⟨rfl, rfl⟩ := Bytes.split?_eq_some_iff.1 cut
              exact ⟨front ++ tag :: data, by simp, .ext spelled, Nat.succ_le_succ (Nat.zero_le d)⟩

theorem readTree_of_spelled {t : Tree} {front : Bytes} (spelled : t.Spelled front)
    (shallow : t.depth ≤ depth) (rest : Bytes) :
    readTree depth (front ++ rest) = some (t, rest) := by
  rw [readTree]
  cases spelled with
  | nil head | bool head | uint head | sint head | single head | double head =>
      rw [readHead_reads.append head]
  | str head | bin head =>
      rw [List.append_assoc, readHead_reads.append head]
      simp
  | array head spelledInside =>
      rw [List.append_assoc, readHead_reads.append head]
      cases depth with
      | zero => cases shallow
      | succ d =>
          have within := itemsDepth_le_iff.1 (Nat.le_of_succ_le_succ shallow)
          have many := (readMany_reads (inside d d.lt_succ_self) _).append
            ⟨rfl, Bytes.inTurn_and_iff.2 ⟨spelledInside, within⟩⟩ rest
          simp [many]
  | map head spelledInside =>
      rw [List.append_assoc, readHead_reads.append head]
      cases depth with
      | zero => cases shallow
      | succ d =>
          have within := entriesDepth_le_iff.1 (Nat.le_of_succ_le_succ shallow)
          have many := (readMany_reads (readEntry_reads (inside d d.lt_succ_self)) _).append
            ⟨rfl, Bytes.inTurn_and_iff.2 ⟨spelledInside, within⟩⟩ rest
          simp [many]
  | ext head =>
      rw [List.append_assoc, readHead_reads.append head]
      cases depth with
      | zero => cases shallow
      | succ d => simp [readExt]

end Step

/-- A value is read in any of its forms, whatever it holds, and nothing else is read. Of the bytes
exactly those of the value are taken. -/
theorem readTree_reads (depth : Nat) :
    Bytes.Reads (readTree depth) fun t b => t.Spelled b ∧ t.depth ≤ depth := by
  induction depth using Nat.strong_induction_on with
  | _ depth inside =>
      intro b t rest
      constructor
      · intro read
        exact spelled_of_readTree inside read
      · rintro ⟨front, rfl, spelled, shallow⟩
        exact readTree_of_spelled inside spelled shallow rest

namespace Tree

variable {t : Tree} {b : Bytes}

/-- A value that is not nested too deep is read, and what stands behind it is left. -/
theorem read_append (spelled : t.Spelled b) (shallow : t.depth ≤ maxDepth) (rest : Bytes) :
    read (b ++ rest) = some (t, rest) :=
  (readTree_reads maxDepth).append ⟨spelled, shallow⟩ rest

theorem spelled_of_whole {depth : Nat} (whole : readTree depth b = some (t, [])) :
    t.Spelled b ∧ t.depth ≤ depth := by
  obtain ⟨front, rfl, spelled⟩ := (readTree_reads depth _ _ _).1 whole
  rwa [List.append_nil]

theorem eq_of_read_append (spelled : t.Spelled b) {rest after : Bytes} {u : Tree}
    (done : read (b ++ rest) = some (u, after)) : u = t := by
  obtain ⟨front, cut, spelled', shallow'⟩ := (readTree_reads maxDepth _ _ _).1 done
  -- both are read by a reader that goes deep enough for both
  have deep := (readTree_reads (max t.depth maxDepth)).append ⟨spelled, Nat.le_max_left _ _⟩ rest
  have deep' := (readTree_reads (max t.depth maxDepth)).append
    ⟨spelled', shallow'.trans (Nat.le_max_right _ _)⟩ after
  rw [← cut, deep] at deep'
  exact (Prod.mk.inj (Option.some.inj deep')).1.symm

end Tree

end Trees

end ContractHost.Msgpack
