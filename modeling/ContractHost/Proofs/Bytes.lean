import ContractHost.Bytes

/-!
Grammars over byte strings.

A grammar says of a value and a byte string that the one is spelled by the other, and it mentions
no reader. A reader follows a grammar (`Bytes.Reads`) if what it takes from the front of a byte
string is what the grammar has there, nothing else and nothing less.
-/

namespace ContractHost

/-- Values spelled one after the other. -/
inductive Bytes.InTurn {α : Type} (spelled : α → Bytes → Prop) : List α → Bytes → Prop
  | nil : InTurn spelled [] []
  | cons {x : α} {xs : List α} {front rest : Bytes} (first : spelled x front)
      (others : InTurn spelled xs rest) : InTurn spelled (x :: xs) (front ++ rest)

theorem Bytes.InTurn.append {α : Type} {spelled : α → Bytes → Prop} {xs ys : List α}
    {front rest : Bytes} (first : InTurn spelled xs front) (others : InTurn spelled ys rest) :
    InTurn spelled (xs ++ ys) (front ++ rest) := by
  induction first with
  | nil => exact others
  | cons spelled _ ih =>
      rw [List.append_assoc]
      exact .cons spelled ih

theorem Bytes.inTurn_and_iff {α : Type} {spelled : α → Bytes → Prop} {p : α → Prop} {xs : List α}
    {b : Bytes} : InTurn (fun x b => spelled x b ∧ p x) xs b ↔
      InTurn spelled xs b ∧ ∀ x ∈ xs, p x := by
  constructor
  · intro both
    induction both with
    | nil => exact ⟨.nil, List.forall_mem_nil _⟩
    | cons first _ ih => exact ⟨.cons first.1 ih.1, List.forall_mem_cons.2 ⟨first.2, ih.2⟩⟩
  · rintro ⟨inTurn, each⟩
    induction inTurn with
    | nil => exact .nil
    | cons first _ ih =>
        obtain ⟨here, others⟩ := List.forall_mem_cons.1 each
        exact .cons ⟨first, here⟩ (ih others)

/-- Values take up the bytes that each of them takes up at least. -/
theorem Bytes.InTurn.length_le {α : Type} {spelled : α → Bytes → Prop} {least : Nat}
    (each : ∀ x b, spelled x b → least ≤ b.length) {xs : List α} {b : Bytes}
    (inTurn : InTurn spelled xs b) : least * xs.length ≤ b.length := by
  induction inTurn with
  | nil => exact Nat.zero_le _
  | cons first _ ih =>
      have front := each _ _ first
      rw [List.length_cons, Nat.mul_succ, List.length_append]
      omega

/-- A reader takes from the front of a byte string what a grammar has there. -/
def Bytes.Reads {α : Type} (read : Bytes → Option (α × Bytes)) (spelled : α → Bytes → Prop) : Prop :=
  ∀ b x rest, read b = some (x, rest) ↔ ∃ front, b = front ++ rest ∧ spelled x front

theorem Bytes.Reads.append {α : Type} {read : Bytes → Option (α × Bytes)}
    {spelled : α → Bytes → Prop} (reads : Reads read spelled) {x : α} {front : Bytes}
    (first : spelled x front) (rest : Bytes) : read (front ++ rest) = some (x, rest) :=
  (reads _ _ _).2 ⟨front, rfl, first⟩

/-- Whatever is read takes up at least so many bytes. -/
def Bytes.Takes {α : Type} (read : Bytes → Option (α × Bytes)) (least : Nat) : Prop :=
  ∀ b x rest, read b = some (x, rest) → rest.length + least ≤ b.length

theorem Bytes.Reads.takes {α : Type} {read : Bytes → Option (α × Bytes)}
    {spelled : α → Bytes → Prop} (reads : Reads read spelled) {least : Nat}
    (each : ∀ x b, spelled x b → least ≤ b.length) : Takes read least := by
  intro b x rest done
  obtain ⟨front, rfl, first⟩ := (reads _ _ _).1 done
  have taken := each x front first
  rw [List.length_append]
  omega

theorem Bytes.ofText_eq_flatMap (s : String) :
    ofText s = s.toList.flatMap String.utf8EncodeChar := by
  have bytes (cs : List Char) : ofText (String.ofList cs) = cs.flatMap String.utf8EncodeChar := by
    simp [ofText, List.utf8Encode]
  have whole := bytes s.toList
  rwa [String.ofList_toList] at whole

end ContractHost
