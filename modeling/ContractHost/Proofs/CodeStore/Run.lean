import ContractHost.Proofs.CodeStore.Entry

/-!
The code store over whole runs: whatever the disk held at the beginning, a code that
was stored is told truly ever after (`content_addressed`).
-/

namespace ContractHost

namespace CodeStore

def createAll (s : CodeStore) (codes : List Bytes) (d : Disk) : Disk :=
  codes.foldl (fun d code => (s.create (m := StateM Disk) code d).2) d

theorem Stored.createAll {s : CodeStore} {d : Disk} {code : Bytes} {later : List Bytes}
    (stored : Stored s d code)
    (apart : ∀ x ∈ later, Checksum.of x = Checksum.of code → x = code) :
    Stored s (s.createAll later d) code := by
  induction later generalizing d with
  | nil => exact stored
  | cons x rest ih =>
      obtain ⟨first, others⟩ := List.forall_mem_cons.1 apart
      refine ih ?_ others
      by_cases same : Checksum.of x = Checksum.of code
      · obtain rfl := first same
        simp only [stored.create]
        exact stored
      · exact stored.create_other same

/-- The store is content-addressed, on every disk. A code that was stored is held after any later
run, and storing it once more changes nothing. Storing a code, even in vain, leaves all files
outside its entry as they are, and the empty code is refused. -/
theorem content_addressed (s : CodeStore) (d : Disk) (code : Bytes) :
    (∀ c d', s.create (m := StateM Disk) code d = (.ok c, d') → c = .of code ∧
      ∀ later : List Bytes, (∀ x ∈ later, Checksum.of x = Checksum.of code → x = code) →
        Holds s (s.createAll later d') code ∧
          s.create (m := StateM Disk) code (s.createAll later d') =
            (.ok c, s.createAll later d')) ∧
    (∀ p b, ¬ s.entryPlace d (.of code) <+: p →
      ((s.create (m := StateM Disk) code d).2.node? p = some (.file b) ↔
        d.node? p = some (.file b))) ∧
    s.create (m := StateM Disk) [] d =
      (.error (.invalidInput "bytecode must not be empty"), d) := by
  refine ⟨fun c d' done => ?_, fun p b outside => ?_, rfl⟩
  · obtain ⟨rfl, stored⟩ := stored_of_create done
    refine ⟨rfl, fun later apart => ?_⟩
    have kept := stored.createAll apart
    exact ⟨kept.holds, kept.create⟩
  · exact (within_create s code d).files outside b

/-- A disk on which an entry was begun: its directory is there, with half a manifest and no code. -/
def begun : Disk :=
  let s := within "data"
  let d := (((Disk.blank [0x77]).put [[0x77], Bytes.ofText "data"] .dir).put
    [[0x77], Bytes.ofText "data", Bytes.ofText "wasm"] .dir)
  (d.put (s.entryPlace d (.of [1])) .dir).put (d.placeOf (s.manifestPath (.of [1])))
    (.file (Bytes.ofText "\x7b"))

/-- A code is stored over a begun entry and outlives a run in which another code is stored, the
same one again, and none. -/
theorem content_addressed_begun :
    ((within "data").create (m := StateM Disk) [1] begun).1 = .ok (.of [1]) ∧
    Holds (within "data") ((within "data").createAll [[2], [1], []]
      ((within "data").create (m := StateM Disk) [1] begun).2) [1] := by
  have done : ((within "data").create (m := StateM Disk) [1] begun).1 = .ok (.of [1]) := by
    decide +kernel
  have apart : ∀ x ∈ [[2], [1], []], Checksum.of x = Checksum.of [1] → x = [1] := by
    decide +kernel
  have whole : (within "data").create (m := StateM Disk) [1] begun =
      (.ok (.of [1]), ((within "data").create (m := StateM Disk) [1] begun).2) := by
    rw [← done, Prod.mk.eta]
  have held := (content_addressed (within "data") begun [1]).1 _ _ whole
  exact ⟨done, (held.2 _ apart).1⟩

end CodeStore

end ContractHost
