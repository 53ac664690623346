import ContractHost.Call.Program
import ContractHost.CodeStore.Basic
import ContractHost.Files.Disk

/-!
Finding the unit that a locator leads to. A chain of resolvers is asked in order, and the first one
that serves the locator decides, be it with a unit or with a failure. A resolver for stored code
keeps the units it has loaded, so that each is loaded once; a failure is never kept.
-/

namespace ContractHost

abbrev Loader := Checksum → Bytes → Except InvokeError Invocable

/-- The loader that knows units for certain checksums, whatever the code. -/
def Loader.ofRegistry (units : Table Checksum Invocable) : Loader := fun c _ =>
  match units.get? c with
  | some u => .ok u
  | none => .error (.resolution ("no unit registered for " ++ c.toHex))

/-- A resolver, with what it remembers. -/
inductive Resolver where
  /-- Serves the units that were registered by name, under one authority. -/
  | named (authority : String) (units : Table String Invocable)
  /-- Serves the codes of a store, as the units that its loader makes of them. It has the units loaded
  so far, and how often the loader was asked. -/
  | stored (store : CodeStore) (loader : Loader) (loaded : Table Checksum Invocable) (loads : Nat)

namespace Resolver

def fresh (store : CodeStore) (loader : Loader) : Resolver := .stored store loader ∅ 0

/-- How often a resolver has asked its loader. -/
def loads : Resolver → Nat
  | .named .. => 0
  | .stored _ _ _ n => n

def readCode (store : CodeStore) (disk : Disk) (c : Checksum) : Except StoreError Bytes :=
  ((store.getCode c : StateM Disk _).run disk).1

/-- Asks for the unit of a locator: none if the resolver does not serve it. -/
def resolve (disk : Disk) (uri : Uri) :
    Resolver → Except InvokeError (Option Invocable) × Resolver
  | .named authority units =>
    (.ok (if uri.authority = authority then units.get? uri.path else none), .named authority units)
  | .stored store loader loaded loads =>
    if uri.authority ≠ Uri.storeAuthority then (.ok none, .stored store loader loaded loads)
    else
      match Checksum.parse uri.path with
      | .error e =>
        (.error (.resolution (uri.text ++ ": " ++ (StoreError.ofChecksum e).message)),
          .stored store loader loaded loads)
      | .ok c =>
        match loaded.get? c with
        | some u => (.ok (some u), .stored store loader loaded loads)
        | none =>
          -- The loader is asked only about code that is there.
          match readCode store disk c with
          | .error e => (.error (.store e), .stored store loader loaded loads)
          | .ok code =>
            match loader c code with
            | .error e => (.error e, .stored store loader loaded (loads + 1))
            | .ok u => (.ok (some u), .stored store loader (loaded.insert c u) (loads + 1))

def resolveChain (disk : Disk) (uri : Uri) :
    List Resolver → Except InvokeError Invocable × List Resolver
  | [] => (.error (.unresolved uri), [])
  | r :: rest =>
    match r.resolve disk uri with
    | (.error e, r) => (.error e, r :: rest)
    | (.ok (some u), r) => (.ok u, r :: rest)
    | (.ok none, r) =>
      let (answer, rest) := resolveChain disk uri rest
      (answer, r :: rest)

end Resolver

end ContractHost
