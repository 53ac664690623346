import ContractHost.Table
import ContractHost.Wasm.Leb128

/-!
The outer shape of a WebAssembly module, as far as its exports need it: a header, and then sections,
each with an id, a size and a body. The body of an export section counts its entries; what follows
the last counted entry is ignored, and so are all other sections.
-/

namespace ContractHost.Wasm

def header : Bytes := [0x00, 0x61, 0x73, 0x6D, 0x01, 0x00, 0x00, 0x00]

def exportSection : UInt8 := 7

def functionKind : UInt8 := 0

structure Section where
  id : UInt8
  body : Bytes

structure Export where
  name : String
  kind : UInt8

def readSection : Bytes → Option (Section × Bytes)
  | [] => none
  | id :: rest => do
    let (size, rest) ← Leb128.read rest
    let (body, rest) ← Bytes.split? size rest
    return (⟨id, body⟩, rest)

theorem length_lt_of_readSection {b r : Bytes} {s : Section} (h : readSection b = some (s, r)) :
    r.length < b.length := by
  cases b with
  | nil => cases h
  | cons id rest =>
    simp only [readSection, Option.bind_eq_bind, Option.bind_eq_some_iff, Prod.exists] at h
    obtain ⟨size, rest', h₁, body, rest'', h₂, h₃⟩ := h
    cases h₃
    have := Leb128.length_lt_of_read h₁
    obtain ⟨rfl, -⟩ := Bytes.split?_eq_some_iff.1 h₂
    simp only [List.length_append, List.length_cons] at this ⊢
    omega

def readSections (b : Bytes) : Option (List Section) :=
  if b.isEmpty then some []
  else
    match _h : readSection b with
    | none => none
    | some (s, rest) => (readSections rest).map (s :: ·)
termination_by b.length
decreasing_by exact length_lt_of_readSection _h

/-- Reads an exported item: its name with the length in front, its kind and its index. -/
def readExport (b : Bytes) : Option (Export × Bytes) := do
  let (length, b) ← Leb128.read b
  let (name, b) ← Bytes.split? length b
  let name ← Bytes.text? name
  match b with
  | [] => none
  | kind :: b =>
    let (_, b) ← Leb128.read b
    return (⟨name, kind⟩, b)

def readExports : Nat → Bytes → Option (List Export)
  | 0, _ => some []
  | n + 1, b => do
    let (e, rest) ← readExport b
    return e :: (← readExports n rest)

/-- The exported items of a section; only export sections have any. -/
def Section.exports (s : Section) : Option (List Export) :=
  if s.id = exportSection then do
    let (count, rest) ← Leb128.read s.body
    readExports count rest
  else some []

def exports (code : Bytes) : Option (List Export) := do
  let rest ← header.isPrefixOf? code
  let sections ← readSections rest
  return (← sections.mapM Section.exports).flatten

/-- The names of the functions that a module exports. Nothing is returned for bytes that are no
module. -/
def exportedFunctions (code : Bytes) : Option TextSet :=
  (exports code).map fun es =>
    TextSet.ofList ((es.filter (·.kind == functionKind)).map Export.name)

end ContractHost.Wasm
