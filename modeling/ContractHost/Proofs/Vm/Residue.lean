import ContractHost.Guest.Counter
import ContractHost.Proofs.CodeStore.Tidy
import ContractHost.Proofs.Vm.Namespaces

/-!
What a host did before makes no difference to what it does next.

Two things outlive a call: the codes that were stored, and the units that the
resolvers have kept. A history of operations leaves the store tidy, every kept
unit one that would be loaded again, and nothing bound (`Sound`), whatever comes
of its operations. After two histories that leave the same codes behind, the
worlds are therefore counterparts, and nothing that is done in them can tell
which of the histories it was.
-/

namespace ContractHost

inductive Act where
  | create (code : Bytes)
  | getCode (c : Checksum)
  | analyzeCode (c : Checksum)
  | resolve (uri : Uri)
  | operate (scope : Layer) (op : Operation)

def Act.code? : Act → Option Bytes
  | .create code => some code
  | _ => none

def OperationResult.AlreadyBound : OperationResult → Prop
  | .called (.error failure) => failure.error = .alreadyBound
  | .state (.finished (.error e)) => e = .alreadyBound
  | _ => False

namespace Vm

/-- Does one thing with a host. What an operation on a scope gave is told. -/
def act (vm : Vm) (w : World) : Act → Option OperationResult × World
  | .create code => (none, (vm.create code w).2)
  | .getCode c => (none, (vm.getCode c w).2)
  | .analyzeCode c => (none, (vm.analyzeCode c w).2)
  | .resolve uri => (none, (w.resolve uri).2)
  | .operate scope op =>
    let (result, w) := vm.operate scope w op
    (some result, w)

def history (vm : Vm) (w : World) : List Act → List OperationResult × World
  | [] => ([], w)
  | a :: rest =>
    let (result, w) := vm.act w a
    let (results, w) := vm.history w rest
    (result.toList ++ results, w)

variable {vm : Vm} {loader : Loader} {first disk : Disk} {codes : List Bytes} {w : World}

theorem operate_call (vm : Vm) (scope : Layer) (w : World) (entry : Entry) (r : CallRequest) :
    (vm.operate scope w (.call entry r)).1 =
      .called (vm.enter entry { r with scope := scope } w).1 := rfl

section Unbound

theorem ofInvoke_ne (e : InvokeError) : VmError.ofInvoke e ≠ .alreadyBound := by
  cases e with
  | store cause => cases cause <;> nofun
  | _ => nofun

theorem failure_ne (t : Gas.Tank) (e : InvokeError) : failure t e ≠ .alreadyBound := by
  unfold failure
  split
  · nofun
  · exact ofInvoke_ne e

theorem perform_ne (vm : Vm) (r : CallRequest) (free : w.binding = none) :
    (vm.perform r w).1 ≠ .error .alreadyBound := by
  have stages := vm.performed r w
  generalize (vm.perform r w).1 = result at stages
  generalize (vm.perform r w).2 = last at stages
  cases stages with
  | unprepared early =>
      have start := vm.prepared r w
      rw [early] at start
      cases start with
      | noMessage bad => nofun
      | unpaid decoded dear => nofun
      | alreadyBound decoded paid bound => exact absurd (free.symm.trans bound) nofun
  | failed ready ran bad => exact fun same => failure_ne _ _ (Except.error.inj same)
  | unpaid ready ran dear => nofun
  | noResponse ready ran paid bad => nofun
  | done ready ran paid read => nofun

theorem operate_unbound (vm : Vm) (scope : Layer) (free : w.binding = none) (op : Operation) :
    ¬ (vm.operate scope w op).1.AlreadyBound := by
  cases op with
  | call entry r =>
      have performed := perform_ne vm (entry.request { r with scope := scope })
        (w := (entry.request { r with scope := scope }).start w) free
      rw [operate_call, enter_eq_call, call_fst]
      split
      · exact id
      · next e failed =>
        rintro rfl
        exact performed failed
  | withState p =>
      simp only [operate, withState_of_free vm scope p free]
      generalize vm.runProgram _ p _ = ran
      obtain ⟨(e | result) | message, w'⟩ := ran
      · exact ofInvoke_ne e
      · exact id
      · exact id

end Unbound

/-- A host that has been used, and on which that has left no mark but the codes in its store. -/
structure Sound (vm : Vm) (loader : Loader) (first : Disk) (codes : List Bytes) (w : World) :
    Prop where
  tidy : vm.store.Tidy first codes w.disk
  tame : Tame w.disk (standardResolvers vm.store loader) w
  idle : Idle w

theorem eq_of_mem_store? {store other : CodeStore} {r : Resolver}
    (mem : r ∈ standardResolvers store loader) (serves : other ∈ r.store?) : other = store := by
  simp only [standardResolvers, List.mem_cons, List.not_mem_nil, or_false] at mem
  rcases mem with rfl | rfl
  · cases serves
  · exact (Option.some.inj serves).symm

namespace Sound

theorem store_eq (s : vm.Sound loader first codes w) {r : Resolver} (mem : r ∈ w.resolvers)
    {other : CodeStore} (serves : other ∈ r.store?) : other = vm.store := by
  have cold : r.cold ∈ standardResolvers vm.store loader := by
    rw [← s.tame.chain_eq]
    exact List.mem_map_of_mem mem
  exact eq_of_mem_store? cold (r.store?_cold ▸ serves)

theorem create (s : vm.Sound loader first codes w) {code : Bytes} (mem : code ∈ codes)
    (apart : CodeStore.Apart codes) :
    vm.Sound loader first codes (vm.create code w).2 where
  tidy := s.tidy.create mem apart
  tame :=
    { disk_eq := rfl
      chain_eq := s.tame.chain_eq
      faithful := fun r kept => (s.tame.faithful r kept).mono fun other serves _ _ => by
        obtain rfl := s.store_eq kept serves
        exact s.tidy.readCode_create mem apart }
  idle := s.idle

theorem read {α : Type} {reading : StateM Disk α} (s : vm.Sound loader first codes w)
    (same : (reading w.disk).2 = w.disk) : vm.Sound loader first codes (w.onDisk reading).2 := by
  have left : (w.onDisk reading).2 = w := by
    change { w with disk := (reading w.disk).2 } = w
    rw [same]
  rwa [left]

theorem operate (s : vm.Sound loader first codes w) (scope : Layer) (op : Operation) :
    vm.Sound loader first codes (vm.operate scope w op).2 := by
  have done := ((Peers.refl s.tame s.idle scope).operate vm op).worlds
  refine ⟨?_, ?_, done.idle_left⟩
  · rw [done.left.disk_eq]
    exact s.tidy
  · rw [done.left.disk_eq]
    exact done.left

/-- Whatever is done with a host leaves it sound, and is not refused for something being bound. -/
theorem act (s : vm.Sound loader first codes w) (a : Act) (known : ∀ code ∈ a.code?, code ∈ codes)
    (apart : CodeStore.Apart codes) :
    vm.Sound loader first codes (vm.act w a).2 ∧
      ∀ result ∈ (vm.act w a).1, ¬ result.AlreadyBound := by
  cases a with
  | create code => exact ⟨s.create (known code rfl) apart, nofun⟩
  | getCode c => exact ⟨s.read (vm.store.getCode_snd c w.disk), nofun⟩
  | analyzeCode c => exact ⟨s.read (vm.store.analyzeCode_snd c w.disk), nofun⟩
  | resolve uri => exact ⟨⟨s.tidy, (s.tame.resolve uri).2, s.idle⟩, nofun⟩
  | operate scope op =>
      refine ⟨s.operate scope op, ?_⟩
      rintro result ⟨⟩
      exact operate_unbound vm scope s.idle.1 op

theorem history (s : vm.Sound loader first codes w) (acts : List Act)
    (known : ∀ code ∈ acts.filterMap Act.code?, code ∈ codes)
    (apart : CodeStore.Apart codes) :
    vm.Sound loader first codes (vm.history w acts).2 ∧
      ∀ result ∈ (vm.history w acts).1, ¬ result.AlreadyBound := by
  induction acts generalizing w with
  | nil => exact ⟨s, nofun⟩
  | cons a rest ih =>
      simp only [List.filterMap_cons] at known
      obtain ⟨next, unrefused⟩ := s.act a (fun code mem => known code (by rw [mem]; simp)) apart
      obtain ⟨last, others⟩ := ih next fun code mem => known code (by split <;> simp [mem])
      refine ⟨last, fun result mem => ?_⟩
      rcases List.mem_append.1 mem with mem | mem
      · exact unrefused result (Option.mem_toList.1 mem)
      · exact others result mem

theorem initial {dataDir : String} {before : Disk}
    (opened : CodeStore.openIn (m := StateM Disk) dataDir before = (.ok vm.store, disk))
    (empty : ∀ c, disk.node? (disk.placeOf (vm.store.codePath c)) = none) (loader : Loader)
    (codes : List Bytes) (heap : Heap) : vm.Sound loader disk codes
      (World.initial disk heap (standardResolvers vm.store loader)) where
  tidy := CodeStore.tidy_openIn opened empty codes
  tame := .initial vm.store loader disk heap
  idle := ⟨rfl, rfl⟩

/-- Two sound hosts that hold codes for the same checksums cannot be told apart in scopes that hold
the same. -/
theorem counterparts {u v : World} {l m : Layer} (left : vm.Sound loader first codes u)
    (right : vm.Sound loader first codes v)
    (apart : CodeStore.Apart codes)
    (same : ∀ c, (vm.store.contains (m := StateM Disk) c u.disk).1 =
      (vm.store.contains (m := StateM Disk) c v.disk).1)
    (view : l.get u.heap = m.get v.heap) :
    Counterparts u.disk v.disk (standardResolvers vm.store loader) l m u v where
  left := left.tame
  right := right.tame
  codes r mem other serves c := by
    obtain rfl := eq_of_mem_store? mem serves
    exact left.tidy.readCode_congr right.tidy apart (same c)
  view := view
  idle_left := left.idle
  idle_right := right.idle

end Sound

/-- Nothing that was done with a host leaves a residue. Let a host be set up in a data directory
that holds no codes, and let one history or another take place, whose codes have checksums of their
own. In neither of them is an operation refused for something being bound. If they leave codes for
the same checksums behind, then one and the same operation, made after either of them in a scope
that holds the same, gives the same, in answer and in gas, and leaves the same in the scope. -/
theorem no_residue (vm : Vm) (dataDir : String) (before disk : Disk)
    (opened : CodeStore.openIn (m := StateM Disk) dataDir before = (.ok vm.store, disk))
    (empty : ∀ c, disk.node? (disk.placeOf (vm.store.codePath c)) = none)
    (loader : Loader) (first second : List Act)
    (apart : CodeStore.Apart ((first ++ second).filterMap Act.code?))
    (heap heap' : Heap) :
    let u := vm.history (World.initial disk heap (standardResolvers vm.store loader)) first
    let v := vm.history (World.initial disk heap' (standardResolvers vm.store loader)) second
    (∀ result ∈ u.1 ++ v.1, ¬ result.AlreadyBound) ∧
      ((∀ c, (vm.store.contains (m := StateM Disk) c u.2.disk).1 =
          (vm.store.contains (m := StateM Disk) c v.2.disk).1) →
        ∀ (l m : Layer), l.get u.2.heap = m.get v.2.heap → ∀ op : Operation,
          (vm.operate l u.2 op).1 = (vm.operate m v.2 op).1 ∧
            l.get (vm.operate l u.2 op).2.heap = m.get (vm.operate m v.2 op).2.heap) := by
  intro u v
  rw [List.filterMap_append] at apart
  obtain ⟨left, unrefused⟩ := (Sound.initial opened empty loader _ heap).history first
    (fun _ mem => List.mem_append_left _ mem) apart
  obtain ⟨right, unrefused'⟩ := (Sound.initial opened empty loader _ heap').history second
    (fun _ mem => List.mem_append_right _ mem) apart
  refine ⟨fun result mem => ?_, fun same l m view op => ?_⟩
  · exact (List.mem_append.1 mem).elim (unrefused result) (unrefused' result)
  · have done := (left.counterparts right apart same view).operate vm op
    exact ⟨done.same, done.worlds.view⟩

end Vm

namespace Sample

def counting : Vm where
  gas := ⟨100, 10, 1⟩
  store := CodeStore.within "data"
  maxNesting := 3

def keeper : Loader := fun _ _ => .ok (.guest (Guest.Counter.guest "keeper"))

def bare : Disk := Disk.blank [0x77]

def opened : Disk := (CodeStore.openIn (m := StateM Disk) "data" bare).2

def count : Operation := .call .execute { request with checksum := .of [1] }

def quiet : List Act := [.create [1]]

/-- A history in which the code is called before it is there and once it is, and in which a program
breaks down. -/
def busy : List Act :=
  [.operate (.memory "a") count, .create [1], .operate (.memory "a") count,
    .operate (.memory "b") (.withState (Guest.set [7] [7] fun _ => .panic "broken"))]

def after (acts : List Act) : World :=
  (counting.history (World.initial opened .empty (Vm.standardResolvers counting.store keeper)) acts).2

theorem opened_empty (c : Checksum) :
    opened.node? (opened.placeOf (counting.store.codePath c)) = none := by
  have short : ∀ e ∈ opened.nodes.entries, e.1.length < 4 := by decide +kernel
  have root : (opened.placeOf counting.store.root).length = 3 := by decide +kernel
  have long : (opened.placeOf (counting.store.codePath c)).length = 5 := by
    rw [CodeStore.codePlace_eq, CodeStore.entryPlace_eq, List.length_append, List.length_append,
      root]
    rfl
  rw [Disk.node?_of_ne_nil (List.ne_nil_of_length_eq_add_one long)]
  refine Entries.find?_eq_none fun e mem same => ?_
  have bound := short e mem
  rw [same, long] at bound
  omega

theorem after_quiet_busy :
    (after quiet).disk.nodes = (after busy).disk.nodes ∧
      (after quiet).disk.cwd = (after busy).disk.cwd ∧
      (after quiet).heap.store "a" = (after busy).heap.store "b" ∧
      (counting.enter .execute { request with checksum := .of [1], scope := .memory "a" }
        (after quiet)).1 = .ok (Response.blank, 152) := by
  decide +kernel

end Sample

/-- A call gives and leaves the same after the busy history as after the quiet one. -/
theorem no_residue_counting :
    (Sample.counting.operate (.memory "b") (Sample.after Sample.busy) Sample.count).1 =
        .called (.ok (Response.blank, 152)) ∧
      (Layer.memory "a").get
          (Sample.counting.operate (.memory "a") (Sample.after Sample.quiet) Sample.count).2.heap =
        (Layer.memory "b").get
          (Sample.counting.operate (.memory "b") (Sample.after Sample.busy)
            Sample.count).2.heap := by
  have opened : CodeStore.openIn (m := StateM Disk) "data" Sample.bare =
      (.ok Sample.counting.store, Sample.opened) := Prod.ext (by decide +kernel) rfl
  have apart : CodeStore.Apart ((Sample.quiet ++ Sample.busy).filterMap Act.code?) := by
    have codes : (Sample.quiet ++ Sample.busy).filterMap Act.code? = [[1], [1]] := rfl
    simp [CodeStore.Apart, codes]
  obtain ⟨-, residue⟩ := Vm.no_residue Sample.counting "data" Sample.bare Sample.opened opened
    Sample.opened_empty Sample.keeper Sample.quiet Sample.busy apart .empty .empty
  have folded (acts : List Act) : (Sample.counting.history (World.initial Sample.opened .empty
    (Vm.standardResolvers Sample.counting.store Sample.keeper)) acts).2 = Sample.after acts := rfl
  rw [folded, folded] at residue
  obtain ⟨nodes, cwd, stores, answered⟩ := Sample.after_quiet_busy
  -- all that matters of the worlds is known, so they need not be looked into
  generalize Sample.after Sample.quiet = u at *
  generalize Sample.after Sample.busy = v at *
  have disks : u.disk = v.disk := Disk.eq_of_nodes nodes cwd
  have view : (Layer.memory "a").get u.heap = (Layer.memory "b").get v.heap :=
    funext fun k => congrArg (Table.get? · k) stores
  obtain ⟨same, view⟩ := residue (fun c => by rw [disks]) (.memory "a") (.memory "b") view
    Sample.count
  refine ⟨?_, view⟩
  rw [← same, Sample.count, Vm.operate_call, answered]

end ContractHost
