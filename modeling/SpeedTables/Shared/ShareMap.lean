import Mathlib
import SpeedTables.Table.State

/-! The share files that a process maps for its tables, and how often each is attached. -/

namespace SpeedTables.Shared

-----------------------------------------------------------------------------------------
-- State
-----------------------------------------------------------------------------------------

/-- A `shm_t`, at an address, and how often its mapping has been initialised: a file that is only
attached has been by its master.
-/
structure Share where
  id : Nat
  filename : CString
  name : Option CString
  size : Nat
  attachCount : Int
  objects : List CString
  inits : Nat

/-- A table of the process: its `share`, and the name it is reserved under. -/
structure ShareTable where
  id : Nat
  share : Nat
  shareName : CString
  deriving DecidableEq

/-- A process: `share_list` and `autoshare`, and its tables. Addresses are not handed out again. -/
structure ShareProcess where
  shareList : List Share
  autoshare : Nat
  tables : List ShareTable
  nextShare : Nat
  nextTable : Nat

/-- A process without tables. -/
def ShareProcess.new : ShareProcess where
  shareList := []
  autoshare := 0
  tables := []
  nextShare := 0
  nextTable := 0

/-- The header of a mapped file, as it is validated. -/
structure FoundHeader where
  magic : Bool
  expectedBase : Bool
  mapsize : Nat

/-- A `create` command for a shared table: whether it is a master, or attaches as a reader; what it
asks for; whether a file that is not mapped can be mapped, and what header is found; and whether
the command succeeds once the share is attached.
-/
structure Creation where
  master : Bool
  shareName : CString
  file : CString
  size : Nat
  maps : Bool
  found : FoundHeader
  completes : Bool

inductive ShareEvent where
  | create (creation : Creation)
  | destroy (table : Nat)

-----------------------------------------------------------------------------------------
-- Operations
-----------------------------------------------------------------------------------------

namespace ShareProcess

/-- The share at an address. -/
def share (process : ShareProcess) (id : Nat) : Option Share :=
  process.shareList.find? (·.id = id)

/-- Write to the share at an address. -/
def update (process : ShareProcess) (id : Nat) (change : Share → Share) : ShareProcess :=
  { process with
    shareList := process.shareList.map fun share => if share.id = id then change share else share }

/-- `map_file`. A request without a size, to attach only, has the size 0. -/
def mapFile (process : ShareProcess) (creation : Creation) : Option (ShareProcess × Nat) :=
  let size := if creation.master then creation.size else 0
  match process.shareList.find? (·.filename = creation.file) with
  | some share =>
      if size ≠ 0 ∧ share.size < size then none
      else
        some (process.update share.id fun share =>
          { share with attachCount := share.attachCount + 1 }, share.id)
  | none =>
      if creation.maps then
        let share : Share :=
          { id := process.nextShare
            filename := creation.file
            name := none
            size := size
            attachCount := 1
            objects := []
            inits := if creation.master then 0 else 1 }
        some ({ process with
          shareList := share :: process.shareList, nextShare := process.nextShare + 1 }, share.id)
      else none

/-- `unmap_file` -/
def unmapFile (process : ShareProcess) (id : Nat) : ShareProcess :=
  match process.share id with
  | none => process
  | some share =>
      if share.objects ≠ [] then process
      else if 0 < share.attachCount - 1 then
        process.update id fun share => { share with attachCount := share.attachCount - 1 }
      else { process with shareList := process.shareList.filter (·.id ≠ id) }

/-- `shminitmap` -/
def shminitmap (process : ShareProcess) (id : Nat) : ShareProcess :=
  process.update id fun share => { share with inits := share.inits + 1 }

/-- `"share%d"` -/
def autoName (number : Nat) : CString :=
  [115, 104, 97, 114, 101] ++ (Nat.toDigits 10 number).map fun digit => UInt8.ofNat digit.toNat

/-- The part of `doCreateOrAttach` behind `map_file`: a share without a name is initialised by a
master, and named; every other one is validated.
-/
def initOrValidate (process : ShareProcess) (creation : Creation) (sharename : CString) (id : Nat)
    : ShareProcess × Option Nat :=
  let newShare := (process.share id).all (·.name.isNone)
  let setName (process : ShareProcess) : ShareProcess :=
    if newShare then process.update id fun share => { share with name := some sharename }
    else process
  if creation.master ∧ newShare then (setName (process.shminitmap id), some id)
  else if !creation.found.magic then (process.unmapFile id, none)
  else if !creation.found.expectedBase then (process.unmapFile id, none)
  else
    (setName (process.update id fun share => { share with size := creation.found.mapsize }),
      some id)

/-- `doCreateOrAttach`, with the share it gives, if it succeeds. -/
def doCreateOrAttach (process : ShareProcess) (creation : Creation)
    : ShareProcess × Option Nat :=
  let isAuto := creation.shareName = [35, 97, 117, 116, 111]
  let number := if isAuto then process.autoshare + 1 else process.autoshare
  let sharename := if isAuto then autoName number else creation.shareName
  let process := { process with autoshare := number }
  match process.mapFile creation with
  | none => (process, none)
  | some (process, id) => process.initOrValidate creation sharename id

/-- `doDetach` -/
def doDetach (process : ShareProcess) (id : Nat) : ShareProcess :=
  match process.share id with
  | none => process
  | some share =>
      if share.objects ≠ [] then process
      else (process.update id fun share => { share with name := none }).unmapFile id

/-- `use_name` -/
def useName (process : ShareProcess) (id : Nat) (name : CString) : ShareProcess :=
  process.update id fun share =>
    { share with objects := if name ∈ share.objects then share.objects else name :: share.objects }

/-- `release_name` -/
def releaseName (process : ShareProcess) (id : Nat) (name : CString) : ShareProcess :=
  process.update id fun share => { share with objects := share.objects.erase name }

/-- The part of the `create` command behind `doCreateOrAttach`: a failure there detaches the share. -/
def enter (process : ShareProcess) (creation : Creation) (id : Nat) : ShareProcess :=
  if creation.completes then
    let process := process.useName id creation.shareName
    { process with
      tables :=
        { id := process.nextTable, share := id, shareName := creation.shareName } :: process.tables
      nextTable := process.nextTable + 1 }
  else process.doDetach id

/-- The part of the `create` command that deals with the share. -/
def create (process : ShareProcess) (creation : Creation) : ShareProcess :=
  match process.doCreateOrAttach creation with
  | (process, none) => process
  | (process, some id) => process.enter creation id

/-- The part of `destroy_ctable` that deals with the share. -/
def destroy (process : ShareProcess) (table : ShareTable) : ShareProcess :=
  let process := { process with tables := process.tables.filter (·.id ≠ table.id) }
  (process.releaseName table.share table.shareName).doDetach table.share

/-- One creation or destruction. -/
def step (process : ShareProcess) : ShareEvent → ShareProcess
  | .create creation => process.create creation
  | .destroy id =>
      match process.tables.find? (·.id = id) with
      | none => process
      | some table => process.destroy table

def run (process : ShareProcess) (events : List ShareEvent) : ShareProcess :=
  events.foldl step process

end ShareProcess

-----------------------------------------------------------------------------------------
-- What is to hold
-----------------------------------------------------------------------------------------

/-- The number of tables that use a share. -/
def ShareProcess.users (process : ShareProcess) (id : Nat) : Nat :=
  process.tables.countP (·.share = id)

/-- A share is mapped and named exactly while tables use it, is attached as often as there are such
tables, and has not been initialised again.
-/
structure ShareProcess.Balanced (process : ShareProcess) : Prop where
  used : ∀ share ∈ process.shareList, share.name.isSome = true ∧ 0 < process.users share.id
  mapped : ∀ table ∈ process.tables, ∃ share ∈ process.shareList, share.id = table.share
  attached : ∀ share ∈ process.shareList, share.attachCount = process.users share.id
  once : ∀ share ∈ process.shareList, share.inits ≤ 1

/-- The addresses and the reservations fit: nothing is there twice, and the objects of a share are
the names of its tables.
-/
structure ShareProcess.Named (process : ShareProcess) : Prop where
  shares : (process.shareList.map Share.id).Nodup
  files : (process.shareList.map Share.filename).Nodup
  tables : (process.tables.map ShareTable.id).Nodup
  newShare : ∀ share ∈ process.shareList, share.id < process.nextShare
  newTable : ∀ table ∈ process.tables, table.id < process.nextTable
  objects : ∀ share ∈ process.shareList, share.objects.Nodup ∧ ∀ name, name ∈ share.objects
    ↔ ∃ table ∈ process.tables, table.share = share.id ∧ table.shareName = name

/-- No table uses another table's share when it is destroyed, or when its creation fails after the
share has been attached.
-/
def ShareProcess.Alone (process : ShareProcess) : ShareEvent → Prop
  | .create creation =>
      ∀ share ∈ process.shareList, share.filename = creation.file →
        (creation.master = true → creation.size ≤ share.size) →
        creation.found.magic = true ∧ creation.found.expectedBase = true
          ∧ creation.completes = true
  | .destroy id =>
      ∀ table ∈ process.tables, table.id = id → ∀ other ∈ process.tables,
        other.share = table.share → other.id = id

namespace ShareProcess

variable {process : ShareProcess} {share : Share} {creation : Creation}

-----------------------------------------------------------------------------------------
-- Reads and writes of the list
-----------------------------------------------------------------------------------------

theorem Named.unique (named : process.Named) {other : Share} (here : share ∈ process.shareList)
    (there : other ∈ process.shareList) (same : share.id = other.id)
    : share = other :=
  List.inj_on_of_nodup_map named.shares here there same

/-- A share is found at its address. -/
theorem share_eq (ids : (process.shareList.map Share.id).Nodup) (member : share ∈ process.shareList)
    : process.share share.id = some share := by
  rcases found : process.share share.id with _ | other
  · have none := List.find?_eq_none.mp found share member
    simp at none
  · have there := List.mem_of_find?_eq_some found
    have same : other.id = share.id := by simpa using List.find?_some found
    rw [List.inj_on_of_nodup_map ids there member same]

theorem update_share {id : Nat} {change : Share → Share} (keeps : ∀ share, (change share).id = share.id)
    : (process.update id change).share id = (process.share id).map change := by
  rw [share, share, update, List.find?_map]
  have same : (fun other : Share => decide (other.id = id))
        ∘ (fun other => if other.id = id then change other else other)
      = fun other => decide (other.id = id) := by
    funext other
    simp only [Function.comp_apply]
    split <;> simp [keeps]
  rw [same]
  refine Option.map_congr fun other found => ?_
  have here : other.id = id := by simpa using List.find?_some found
  rw [if_pos here]

theorem update_update {id : Nat} {first second : Share → Share}
    (keeps : ∀ share, (first share).id = share.id)
    : (process.update id first).update id second = process.update id (second ∘ first) := by
  simp only [update, List.map_map]
  congr 1
  refine List.map_congr_left fun other _ => ?_
  by_cases here : other.id = id
  · simp [here, keeps]
  · simp [here]

/-- Another list of shares. -/
def withShares (process : ShareProcess) (shares : List Share) : ShareProcess :=
  { process with shareList := shares }

/-- A write to a share that has just been put in front. -/
theorem update_front {rest : List Share} (fresh : ∀ other ∈ rest, other.id ≠ share.id)
    (change : Share → Share)
    : (process.withShares (share :: rest)).update share.id change
        = process.withShares (change share :: rest) := by
  simp only [update, withShares, List.map_cons, if_true]
  congr 2
  calc rest.map _
    _ = rest.map id := List.map_congr_left fun other member => if_neg (fresh other member)
    _ = rest := List.map_id rest

/-- A write to a share is lost when the share is taken away. -/
theorem update_filter {id : Nat} {change : Share → Share}
    (keeps : ∀ share, (change share).id = share.id)
    : (process.update id change).shareList.filter (fun other => decide (other.id ≠ id))
        = process.shareList.filter (fun other => decide (other.id ≠ id)) := by
  simp only [update, List.filter_map]
  have same : (fun other : Share => decide (other.id ≠ id))
        ∘ (fun other => if other.id = id then change other else other)
      = fun other => decide (other.id ≠ id) := by
    funext other
    simp only [Function.comp_apply]
    split <;> simp [keeps]
  rw [same]
  calc (process.shareList.filter fun other => decide (other.id ≠ id)).map _
    _ = (process.shareList.filter fun other => decide (other.id ≠ id)).map (fun other => other) := by
        refine List.map_congr_left fun other member => if_neg ?_
        simpa using (List.mem_filter.mp member).2
    _ = process.shareList.filter fun other => decide (other.id ≠ id) := List.map_id' _

/-- What a share with objects goes through in `unmap_file` and `doDetach`: nothing. -/
theorem unmapFile_busy {id : Nat} (found : process.share id = some share)
    (busy : share.objects ≠ [])
    : process.unmapFile id = process := by
  simp only [unmapFile, found, busy, ne_eq, not_false_eq_true, if_true]

theorem doDetach_busy {id : Nat} (found : process.share id = some share)
    (busy : share.objects ≠ [])
    : process.doDetach id = process := by
  simp only [doDetach, found, busy, ne_eq, not_false_eq_true, if_true]

/-- The last attachment of a share without objects unmaps it. -/
theorem doDetach_last {id : Nat} (found : process.share id = some share)
    (idle : share.objects = []) (last : share.attachCount ≤ 1)
    : process.doDetach id
        = { process with shareList := process.shareList.filter (·.id ≠ id) } := by
  have named : (process.update id fun share => { share with name := none }).share id
      = some { share with name := none } := by
    rw [update_share, found]
    · rfl
    · exact fun _ => rfl
  have noMore : ¬ 0 < share.attachCount - 1 := by omega
  simp only [doDetach, found, idle, ne_eq, not_true_eq_false, if_false, unmapFile, named, noMore]
  have same := @update_filter process id (fun share => { share with name := none }) fun _ => rfl
  rw [same]
  rfl

/-- A share that is still attached when it has no objects any more stays mapped, without a name. -/
theorem doDetach_more {id : Nat} (found : process.share id = some share)
    (idle : share.objects = []) (more : 1 < share.attachCount)
    : ∃ after ∈ (process.doDetach id).shareList, after.name = none := by
  have named : (process.update id fun share => { share with name := none }).share id
      = some { share with name := none } := by
    rw [update_share, found]
    · rfl
    · exact fun _ => rfl
  have positive : 0 < share.attachCount - 1 := by omega
  have stays : ((process.doDetach id).share id).map Share.name = some none := by
    simp only [doDetach, found, idle, ne_eq, not_true_eq_false, if_false, unmapFile, named, positive,
      if_true]
    rw [update_share, named]
    · rfl
    · exact fun _ => rfl
  obtain ⟨after, there, unnamed⟩ := Option.map_eq_some_iff.mp stays
  exact ⟨after, List.mem_of_find?_eq_some there, unnamed⟩

-----------------------------------------------------------------------------------------
-- Creations
-----------------------------------------------------------------------------------------

/-- The number of the last automatic name, once a creation has had its name. -/
def numbered (process : ShareProcess) (creation : Creation) : Nat :=
  if creation.shareName = [35, 97, 117, 116, 111] then process.autoshare + 1
  else process.autoshare

theorem find_file (files : (process.shareList.map Share.filename).Nodup)
    (member : share ∈ process.shareList) (file : share.filename = creation.file)
    : process.shareList.find? (·.filename = creation.file) = some share := by
  rcases found : process.shareList.find? (·.filename = creation.file) with _ | other
  · have none := List.find?_eq_none.mp found share member
    simp [file] at none
  · have there := List.mem_of_find?_eq_some found
    have same : other.filename = creation.file := by simpa using List.find?_some found
    rw [found, List.inj_on_of_nodup_map files there member (same.trans file.symm)]

/-- A creation that asks for more than a mapped share has is refused. -/
theorem create_refused (named : process.Named) (member : share ∈ process.shareList)
    (file : share.filename = creation.file)
    (larger : ¬ (creation.master = true → creation.size ≤ share.size))
    : process.create creation = { process with autoshare := process.numbered creation } := by
  obtain ⟨master, larger⟩ := Classical.not_imp.mp larger
  rw [Nat.not_le] at larger
  have found := find_file named.files member file
  have positive : creation.size ≠ 0 := by omega
  have refused : ({ process with autoshare := process.numbered creation }).mapFile creation
      = none := by
    simp [mapFile, master, found, positive, larger]
  simp only [create, doCreateOrAttach]
  rw [numbered] at refused ⊢
  rw [refused]

/-- A share that another table attaches. -/
def joined (creation : Creation) (share : Share) : Share :=
  { share with
    attachCount := share.attachCount + 1
    size := creation.found.mapsize
    objects :=
      if creation.shareName ∈ share.objects then share.objects
      else creation.shareName :: share.objects }

/-- A creation on a mapped share attaches it once more; if it fails then, that stays. -/
theorem create_existing (named : process.Named) (member : share ∈ process.shareList)
    (file : share.filename = creation.file)
    (fits : creation.master = true → creation.size ≤ share.size)
    (known : share.name.isSome = true) (busy : share.objects ≠ [])
    : (creation.found.magic = true ∧ creation.found.expectedBase = true
          ∧ creation.completes = true →
        process.create creation
          = { process.update share.id (joined creation) with
              autoshare := process.numbered creation
              tables :=
                { id := process.nextTable, share := share.id, shareName := creation.shareName }
                  :: process.tables
              nextTable := process.nextTable + 1 })
      ∧ (¬ (creation.found.magic = true ∧ creation.found.expectedBase = true
          ∧ creation.completes = true) →
        ∃ size : Share → Nat, process.create creation
          = { process.update share.id fun share =>
                { share with attachCount := share.attachCount + 1, size := size share } with
              autoshare := process.numbered creation }) := by
  set numbered' : ShareProcess := { process with autoshare := process.numbered creation }
    with numbering
  have here : numbered'.share share.id = some share := share_eq named.shares member
  have found : numbered'.shareList.find? (·.filename = creation.file) = some share :=
    find_file named.files member file
  have room : ¬ ((if creation.master then creation.size else 0) ≠ 0
      ∧ share.size < if creation.master then creation.size else 0) := by
    by_cases master : creation.master = true
    · have := fits master
      simp only [master, if_true]
      omega
    · simp [master]
  let attach : Share → Share := fun share => { share with attachCount := share.attachCount + 1 }
  have mapped : numbered'.mapFile creation = some (numbered'.update share.id attach, share.id) := by
    simp only [mapFile, found, if_neg room, attach]
  have attached : (numbered'.update share.id attach).share share.id = some (attach share) := by
    rw [update_share, here]
    · rfl
    · exact fun _ => rfl
  have old : (attach share).name.isNone = false := by
    simpa [attach] using known
  have stays : (numbered'.update share.id attach).unmapFile share.id
      = numbered'.update share.id attach :=
    unmapFile_busy attached busy
  let resize : Share → Share := fun share => { share with size := creation.found.mapsize }
  have resized : (numbered'.update share.id attach).update share.id resize
      = numbered'.update share.id (resize ∘ attach) :=
    update_update fun _ => rfl
  have reached : (numbered'.update share.id (resize ∘ attach)).share share.id
      = some (resize (attach share)) := by
    rw [update_share, here]
    · rfl
    · exact fun _ => rfl
  have steps : process.create creation
      = match (numbered'.update share.id attach).initOrValidate creation
          (if creation.shareName = [35, 97, 117, 116, 111] then
            autoName (process.numbered creation) else creation.shareName) share.id with
        | (process, none) => process
        | (process, some id) => process.enter creation id := by
    simp only [create, doCreateOrAttach]
    rw [numbered] at numbering ⊢
    rw [← numbering, mapped]
  rw [steps]
  simp only [initOrValidate, attached, Option.all_some, old, Bool.false_eq_true, and_false, if_false]
  cases creation.found.magic with
  | false =>
      refine ⟨nofun, fun _ => ⟨Share.size, ?_⟩⟩
      change (numbered'.update share.id attach).unmapFile share.id = _
      rw [stays]
      rfl
  | true =>
      cases creation.found.expectedBase with
      | false =>
          refine ⟨nofun, fun _ => ⟨Share.size, ?_⟩⟩
          change (numbered'.update share.id attach).unmapFile share.id = _
          rw [stays]
          rfl
      | true =>
          change (_ → ((numbered'.update share.id attach).update share.id resize).enter creation
              share.id = _)
            ∧ (_ → ∃ size, ((numbered'.update share.id attach).update share.id resize).enter creation
              share.id = _)
          rw [resized, enter]
          cases creation.completes with
          | false =>
              refine ⟨nofun, fun _ => ⟨fun _ => creation.found.mapsize, ?_⟩⟩
              rw [if_neg Bool.false_ne_true, doDetach_busy reached busy]
              rfl
          | true =>
              refine ⟨fun _ => ?_, fun failed => absurd ⟨rfl, rfl, rfl⟩ failed⟩
              have entered : (numbered'.update share.id (resize ∘ attach)).useName share.id
                  creation.shareName = numbered'.update share.id (joined creation) := by
                rw [useName, update_update]
                · rfl
                · exact fun _ => rfl
              rw [if_pos rfl, entered]
              rfl

/-- A share in front, under its own address. -/
theorem front_share {rest : List Share}
    : (process.withShares (share :: rest)).share share.id = some share := by
  simp [ShareProcess.share, withShares]

theorem front_filter {rest : List Share} (fresh : ∀ other ∈ rest, other.id ≠ share.id)
    : (share :: rest).filter (fun other => decide (other.id ≠ share.id)) = rest := by
  rw [List.filter_cons_of_neg (by simp)]
  exact List.filter_eq_self.mpr fun other member => by simpa using fresh other member

/-- A share that has been attached once and has no objects goes when it is detached. -/
theorem front_detach {rest : List Share} (fresh : ∀ other ∈ rest, other.id ≠ share.id)
    (idle : share.objects = []) (once : share.attachCount = 1)
    : (process.withShares (share :: rest)).doDetach share.id
          = process.withShares rest
        ∧ (process.withShares (share :: rest)).unmapFile share.id
          = process.withShares rest := by
  constructor
  · rw [doDetach_last front_share idle (Int.le_of_eq once)]
    simp only [withShares, front_filter fresh]
  · have noMore : ¬ 0 < share.attachCount - 1 := by omega
    simp only [unmapFile, front_share, idle, ne_eq, not_true_eq_false, if_false, noMore]
    have same := front_filter fresh
    simp only [ne_eq] at same
    simp only [withShares, same]

/-- Behind `doCreateOrAttach`, a share that is new is detached again, or has its first table. -/
theorem front_enter {rest : List Share} (fresh : ∀ other ∈ rest, other.id ≠ share.id)
    (idle : share.objects = []) (once : share.attachCount = 1)
    : (process.withShares (share :: rest)).enter creation share.id
        = if creation.completes = true then
            { process.withShares ({ share with objects := [creation.shareName] } :: rest) with
              tables :=
                { id := process.nextTable, share := share.id, shareName := creation.shareName }
                  :: process.tables
              nextTable := process.nextTable + 1 }
          else process.withShares rest := by
  rw [enter]
  split
  · rw [useName, update_front fresh]
    simp [idle, withShares]
  · exact (front_detach fresh idle once).1

/-- A new share is not validated, and goes again, or has been initialised once and has its name. -/
theorem front_init {rest : List Share} (fresh : ∀ other ∈ rest, other.id ≠ share.id)
    (idle : share.objects = []) (once : share.attachCount = 1) (unnamed : share.name = none)
    (inits : share.inits = if creation.master then 0 else 1) (sharename : CString)
    : (process.withShares (share :: rest)).initOrValidate creation sharename share.id
          = (process.withShares rest, none)
        ∨ ∃ size, (process.withShares (share :: rest)).initOrValidate creation sharename
            share.id
          = (process.withShares
                ({ share with name := some sharename, size := size, inits := 1 } :: rest),
              some share.id) := by
  have named {changed : Share} (same : changed.id = share.id)
      : (process.withShares (changed :: rest)).update share.id
          (fun share => { share with name := some sharename })
        = process.withShares ({ changed with name := some sharename } :: rest) := by
    rw [← same]
    exact update_front (fun other member => same ▸ fresh other member) _
  simp only [initOrValidate, front_share, Option.all_some, unnamed, Option.isNone_none, if_true,
    and_true]
  by_cases master : creation.master = true
  · refine .inr ⟨share.size, ?_⟩
    rw [if_pos master, shminitmap, update_front fresh,
      @named { share with inits := share.inits + 1 } rfl]
    simp [inits, master]
  · rw [if_neg master]
    by_cases magic : creation.found.magic = true
    · by_cases expectedBase : creation.found.expectedBase = true
      · refine .inr ⟨creation.found.mapsize, ?_⟩
        rw [if_neg (by simp [magic]), if_neg (by simp [expectedBase]), update_front fresh,
          @named { share with size := creation.found.mapsize } rfl]
        simp [inits, master]
      · exact .inl (by
          rw [if_neg (by simp [magic]), if_pos (by simp [expectedBase]),
            (front_detach fresh idle once).2])
    · exact .inl (by rw [if_pos (by simp [magic]), (front_detach fresh idle once).2])

/-- What a creation on a file that is not mapped leaves behind: nothing but used numbers, or the new
share with its table.
-/
def Starts (process : ShareProcess) (creation : Creation) (after : ShareProcess) : Prop :=
  (∃ number next, process.nextShare ≤ next
      ∧ after = { process with autoshare := number, nextShare := next })
    ∨ ∃ number, ∃ share : Share, share.id = process.nextShare ∧ share.filename = creation.file
      ∧ share.name.isSome = true ∧ share.attachCount = 1 ∧ share.objects = [creation.shareName]
      ∧ share.inits = 1
      ∧ after = { process with
          shareList := share :: process.shareList
          autoshare := number
          tables :=
            { id := process.nextTable, share := share.id, shareName := creation.shareName }
              :: process.tables
          nextShare := process.nextShare + 1
          nextTable := process.nextTable + 1 }

theorem create_new (named : process.Named)
    (unmapped : ∀ share ∈ process.shareList, share.filename ≠ creation.file)
    : process.Starts creation (process.create creation) := by
  have absent : process.shareList.find? (·.filename = creation.file) = none :=
    List.find?_eq_none.mpr fun share member => by simpa using unmapped share member
  cases maps : creation.maps with
  | false =>
      refine .inl ⟨process.numbered creation, process.nextShare, Nat.le_refl _, ?_⟩
      simp only [create, doCreateOrAttach, mapFile, absent, maps, Bool.false_eq_true, if_false]
      rfl
  | true =>
      have fresh : ∀ other ∈ process.shareList, other.id ≠ process.nextShare :=
        fun other member => Nat.ne_of_lt (named.newShare other member)
      let base (number : Nat) : ShareProcess :=
        { process with autoshare := number, nextShare := process.nextShare + 1 }
      let new : Share :=
        { id := process.nextShare
          filename := creation.file
          name := none
          size := if creation.master then creation.size else 0
          attachCount := 1
          objects := []
          inits := if creation.master then 0 else 1 }
      have steps : process.create creation
          = match ((base (process.numbered creation)).withShares
              (new :: process.shareList)).initOrValidate creation
                (if creation.shareName = [35, 97, 117, 116, 111] then
                  autoName (process.numbered creation) else creation.shareName) new.id with
            | (process, none) => process
            | (process, some id) => process.enter creation id := by
        simp only [create, doCreateOrAttach, mapFile, absent, maps, if_true]
        rfl
      rw [steps]
      rcases @front_init (base (process.numbered creation)) new creation process.shareList fresh rfl
        rfl rfl rfl (if creation.shareName = [35, 97, 117, 116, 111] then
          autoName (process.numbered creation) else creation.shareName)
        with gone | ⟨size, entered⟩
      · rw [gone]
        exact .inl ⟨process.numbered creation, process.nextShare + 1, Nat.le_succ _, rfl⟩
      · rw [entered]
        have finished := @front_enter (base (process.numbered creation))
          { new with
            name := some (if creation.shareName = [35, 97, 117, 116, 111] then
              autoName (process.numbered creation) else creation.shareName)
            size := size
            inits := 1 } creation process.shareList fresh rfl rfl
        simp only at finished ⊢
        rw [finished]
        split
        · exact .inr ⟨process.numbered creation, _, rfl, rfl, rfl, rfl, rfl, rfl, rfl⟩
        · exact .inl ⟨process.numbered creation, process.nextShare + 1, Nat.le_succ _, rfl⟩

-----------------------------------------------------------------------------------------
-- Destructions
-----------------------------------------------------------------------------------------

variable {table : ShareTable}

/-- Taking one table away takes one from a count that it is in. -/
theorem countP_without {tables : List ShareTable} (ids : (tables.map ShareTable.id).Nodup)
    (member : table ∈ tables) (counted : ShareTable → Bool)
    : tables.countP counted
        = (tables.filter (·.id ≠ table.id)).countP counted + if counted table then 1 else 0 := by
  induction tables with
  | nil => cases member
  | cons first rest ih =>
      rw [List.map_cons, List.nodup_cons] at ids
      by_cases here : first.id = table.id
      · have others : ∀ other ∈ rest, other.id ≠ table.id := by
          intro other inside same
          exact ids.1 (List.mem_map.mpr ⟨other, inside, same.trans here.symm⟩)
        have same : first = table := by
          rcases List.mem_cons.mp member with same | inside
          · exact same.symm
          · exact absurd rfl (others table inside)
        have kept : rest.filter (fun other => decide (other.id ≠ table.id)) = rest :=
          List.filter_eq_self.mpr fun other inside => by simpa using others other inside
        rw [List.filter_cons_of_neg (by simp [here]), kept, same, List.countP_cons]
      · have inside : table ∈ rest := by
          rcases List.mem_cons.mp member with same | inside
          · exact absurd (congrArg ShareTable.id same).symm here
          · exact inside
        rw [List.filter_cons_of_pos (by simp [here]), List.countP_cons, List.countP_cons,
          ih ids.2 inside]
        omega

/-- The users of a share, when a table has gone. -/
theorem Named.users_without (named : process.Named) (member : table ∈ process.tables) (id : Nat)
    : process.users id
        = ({ process with tables := process.tables.filter (·.id ≠ table.id) }).users id
          + if table.share = id then 1 else 0 := by
  have counts := countP_without named.tables member (fun other => decide (other.share = id))
  simpa only [users, decide_eq_true_eq] using counts

/-- The last table of a share takes it away. -/
theorem destroy_last (balanced : process.Balanced) (named : process.Named)
    (member : table ∈ process.tables) (alone : process.Alone (.destroy table.id))
    : process.destroy table
        = { process with
            tables := process.tables.filter (·.id ≠ table.id)
            shareList := process.shareList.filter (·.id ≠ table.share) } := by
  obtain ⟨share, here, uses⟩ := balanced.mapped table member
  have only : ∀ other ∈ process.tables, other.share = share.id → other = table := by
    intro other inside same
    exact List.inj_on_of_nodup_map named.tables inside member
      (alone table member rfl other inside (same.trans uses))
  have idle : share.objects.erase table.shareName = [] := by
    rw [List.eq_nil_iff_forall_not_mem]
    intro name left
    obtain ⟨distinct, objects⟩ := named.objects share here
    obtain ⟨other, inside, same, names⟩ := (objects name).mp (List.mem_of_mem_erase left)
    rw [only other inside same] at names
    exact (List.Nodup.mem_erase_iff distinct).mp left |>.1 names.symm
  have once : share.attachCount ≤ 1 := by
    have none : ({ process with tables := process.tables.filter (·.id ≠ table.id) }).users share.id
        = 0 := by
      refine List.countP_eq_zero.mpr fun other inside => ?_
      obtain ⟨inside, distinct⟩ := List.mem_filter.mp inside
      simp only [decide_eq_true_eq]
      intro same
      rw [only other inside same] at distinct
      simp at distinct
    have counts := named.users_without member share.id
    rw [none, if_pos uses.symm] at counts
    rw [balanced.attached share here, counts]
    exact Int.le_refl 1
  let process' : ShareProcess :=
    { process with tables := process.tables.filter (·.id ≠ table.id) }
  have found : (process'.releaseName table.share table.shareName).share table.share
      = some { share with objects := share.objects.erase table.shareName } := by
    rw [releaseName, update_share, ← uses]
    · have there : process'.share share.id = some share := share_eq named.shares here
      rw [there]
      rfl
    · exact fun _ => rfl
  change (process'.releaseName table.share table.shareName).doDetach table.share = _
  rw [doDetach_last found idle once]
  have same := @update_filter process' table.share
    (fun share => { share with objects := share.objects.erase table.shareName }) fun _ => rfl
  rw [releaseName, same]
  rfl

-----------------------------------------------------------------------------------------
-- Steps
-----------------------------------------------------------------------------------------

/-- A share that tables use is busy. -/
theorem Balanced.busy (balanced : process.Balanced) (named : process.Named)
    (member : share ∈ process.shareList)
    : share.objects ≠ [] := by
  obtain ⟨table, inside, uses⟩ := List.countP_pos_iff.mp (balanced.used share member).2
  have reserved := ((named.objects share member).2 table.shareName).mpr
    ⟨table, inside, by simpa using uses, rfl⟩
  exact List.ne_nil_of_mem reserved

theorem users_front {after : ShareProcess} (tables : after.tables = table :: process.tables) (id : Nat)
    : after.users id = process.users id + if table.share = id then 1 else 0 := by
  rw [users, tables, List.countP_cons]
  simp only [decide_eq_true_eq, users]

theorem mem_update {id : Nat} {change : Share → Share} {after : Share}
    (member : after ∈ (process.update id change).shareList)
    : ∃ share ∈ process.shareList, after = if share.id = id then change share else share := by
  obtain ⟨share, inside, rfl⟩ := List.mem_map.mp member
  exact ⟨share, inside, rfl⟩

/-- A new share with its table. -/
theorem Balanced.starts {after : ShareProcess} (balanced : process.Balanced) (named : process.Named)
    (unmapped : ∀ share ∈ process.shareList, share.filename ≠ creation.file)
    (starts : process.Starts creation after)
    : after.Balanced ∧ after.Named := by
  rcases starts with ⟨number, next, later, rfl⟩
    | ⟨number, share, address, file, known, once, objects, inits, rfl⟩
  · exact ⟨⟨balanced.used, balanced.mapped, balanced.attached, balanced.once⟩,
      ⟨named.shares, named.files, named.tables,
        fun share member => Nat.lt_of_lt_of_le (named.newShare share member) later,
        named.newTable, named.objects⟩⟩
  · have fresh : ∀ table ∈ process.tables, table.share ≠ share.id := by
      intro table inside same
      obtain ⟨old, here, uses⟩ := balanced.mapped table inside
      have earlier := named.newShare old here
      omega
    have other : ∀ old ∈ process.shareList, old.id ≠ share.id := by
      intro old here
      have earlier := named.newShare old here
      omega
    have none : process.users share.id = 0 :=
      List.countP_eq_zero.mpr fun table inside => by simpa using fresh table inside
    let after : ShareProcess := { process with
      shareList := share :: process.shareList
      autoshare := number
      tables :=
        { id := process.nextTable, share := share.id, shareName := creation.shareName }
          :: process.tables
      nextShare := process.nextShare + 1
      nextTable := process.nextTable + 1 }
    change after.Balanced ∧ after.Named
    have counts : ∀ id, after.users id = process.users id + if share.id = id then 1 else 0 :=
      @users_front process
        { id := process.nextTable, share := share.id, shareName := creation.shareName } after rfl
    constructor
    · refine ⟨?_, ?_, ?_, ?_⟩
      · rintro old (_ | ⟨_, here⟩)
        · rw [counts, if_pos rfl]
          exact ⟨known, Nat.succ_pos _⟩
        · rw [counts, if_neg (Ne.symm (other old here))]
          exact balanced.used old here
      · rintro table (_ | ⟨_, inside⟩)
        · exact ⟨share, List.mem_cons_self, rfl⟩
        · obtain ⟨old, here, uses⟩ := balanced.mapped table inside
          exact ⟨old, List.mem_cons_of_mem _ here, uses⟩
      · rintro old (_ | ⟨_, here⟩)
        · rw [counts, if_pos rfl, once, none]
          rfl
        · rw [counts, if_neg (Ne.symm (other old here))]
          exact balanced.attached old here
      · rintro old (_ | ⟨_, here⟩)
        · exact Nat.le_of_eq inits
        · exact balanced.once old here
    · refine ⟨?_, ?_, ?_, ?_, ?_, ?_⟩
      · rw [List.map_cons, List.nodup_cons]
        refine ⟨fun member => ?_, named.shares⟩
        obtain ⟨old, here, same⟩ := List.mem_map.mp member
        exact other old here same
      · rw [List.map_cons, List.nodup_cons]
        refine ⟨fun member => ?_, named.files⟩
        obtain ⟨old, here, same⟩ := List.mem_map.mp member
        exact unmapped old here (same.trans file)
      · rw [List.map_cons, List.nodup_cons]
        refine ⟨fun member => ?_, named.tables⟩
        obtain ⟨old, inside, same⟩ := List.mem_map.mp member
        have earlier := named.newTable old inside
        simp only at same
        omega
      · rintro old (_ | ⟨_, here⟩)
        · rw [address]
          exact Nat.lt_succ_self _
        · exact Nat.lt_succ_of_lt (named.newShare old here)
      · rintro table (_ | ⟨_, inside⟩)
        · exact Nat.lt_succ_self _
        · exact Nat.lt_succ_of_lt (named.newTable table inside)
      · rintro old (_ | ⟨_, here⟩)
        · rw [objects]
          refine ⟨List.nodup_singleton _, fun name => ?_⟩
          simp only [after, List.mem_cons, List.not_mem_nil, or_false, exists_eq_or_imp, true_and]
          constructor
          · rintro rfl
            exact .inl rfl
          · rintro (rfl | ⟨table, inside, same, -⟩)
            · rfl
            · exact absurd same (fresh table inside)
        · refine ⟨(named.objects old here).1, fun name => ?_⟩
          rw [(named.objects old here).2 name]
          simp only [after, List.mem_cons, exists_eq_or_imp, Ne.symm (other old here), false_and,
            false_or]

/-- Another table on a share. -/
theorem Balanced.joins (balanced : process.Balanced) (named : process.Named)
    (member : share ∈ process.shareList) (number : Nat)
    : let after : ShareProcess := { process.update share.id (joined creation) with
        autoshare := number
        tables :=
          { id := process.nextTable, share := share.id, shareName := creation.shareName }
            :: process.tables
        nextTable := process.nextTable + 1 }
      after.Balanced ∧ after.Named := by
  intro after
  have counts : ∀ id, after.users id = process.users id + if share.id = id then 1 else 0 :=
    @users_front process
      { id := process.nextTable, share := share.id, shareName := creation.shareName } after rfl
  have comes : ∀ new ∈ after.shareList, ∃ old ∈ process.shareList,
      new = if old.id = share.id then joined creation old else old :=
    fun new member => mem_update member
  have keeps (old : Share) : (if old.id = share.id then joined creation old else old).id = old.id
      ∧ (if old.id = share.id then joined creation old else old).filename = old.filename := by
    split <;> exact ⟨rfl, rfl⟩
  have same : after.shareList.map Share.id = process.shareList.map Share.id
      ∧ after.shareList.map Share.filename = process.shareList.map Share.filename := by
    simp only [after, update, List.map_map]
    exact ⟨List.map_congr_left fun old _ => (keeps old).1,
      List.map_congr_left fun old _ => (keeps old).2⟩
  constructor
  · refine ⟨?_, ?_, ?_, ?_⟩
    · intro new inside
      obtain ⟨old, here, rfl⟩ := comes new inside
      rw [(keeps old).1, counts]
      refine ⟨?_, Nat.lt_of_lt_of_le (balanced.used old here).2 (Nat.le_add_right _ _)⟩
      split <;> exact (balanced.used old here).1
    · have there : ∀ old ∈ process.shareList, ∃ new ∈ after.shareList, new.id = old.id :=
        fun old here => ⟨_, List.mem_map.mpr ⟨old, here, rfl⟩, (keeps old).1⟩
      rintro table (_ | ⟨_, inside⟩)
      · exact there share member
      · obtain ⟨old, here, uses⟩ := balanced.mapped table inside
        exact uses ▸ there old here
    · intro new inside
      obtain ⟨old, here, rfl⟩ := comes new inside
      rw [(keeps old).1, counts]
      by_cases this : old.id = share.id
      · rw [if_pos this, if_pos this.symm, joined, balanced.attached old here]
        rfl
      · rw [if_neg this, if_neg (Ne.symm this)]
        exact balanced.attached old here
    · intro new inside
      obtain ⟨old, here, rfl⟩ := comes new inside
      split <;> exact balanced.once old here
  · refine ⟨same.1 ▸ named.shares, same.2 ▸ named.files, ?_, ?_, ?_, ?_⟩
    · rw [List.map_cons, List.nodup_cons]
      refine ⟨fun listed => ?_, named.tables⟩
      obtain ⟨old, inside, equal⟩ := List.mem_map.mp listed
      have earlier := named.newTable old inside
      simp only at equal
      omega
    · intro new inside
      obtain ⟨old, here, rfl⟩ := comes new inside
      rw [(keeps old).1]
      exact named.newShare old here
    · rintro table (_ | ⟨_, inside⟩)
      · exact Nat.lt_succ_self _
      · exact Nat.lt_succ_of_lt (named.newTable table inside)
    · intro new inside
      obtain ⟨old, here, rfl⟩ := comes new inside
      obtain ⟨distinct, objects⟩ := named.objects old here
      rw [(keeps old).1]
      simp only [after, List.mem_cons, exists_eq_or_imp]
      by_cases this : old.id = share.id
      · rw [if_pos this]
        simp only [this, true_and, joined]
        rw [this] at objects
        split
        next listed =>
          refine ⟨distinct, fun name => ?_⟩
          rw [objects name]
          refine ⟨.inr, fun found => ?_⟩
          rcases found with rfl | found
          · exact (objects creation.shareName).mp listed
          · exact found
        next unlisted =>
          refine ⟨List.nodup_cons.mpr ⟨unlisted, distinct⟩, fun name => ?_⟩
          rw [List.mem_cons, objects name, eq_comm]
      · rw [if_neg this]
        simp only [Ne.symm this, false_and, false_or]
        exact ⟨distinct, objects⟩

/-- A table goes, and its share with it if it was alone there. -/
theorem Balanced.leaves (balanced : process.Balanced) (named : process.Named)
    (alone : process.Alone (.destroy table.id)) (member : table ∈ process.tables)
    : (process.destroy table).Balanced ∧ (process.destroy table).Named := by
  rw [destroy_last balanced named member alone]
  have others : ∀ other ∈ process.tables, other.id ≠ table.id → other.share ≠ table.share :=
    fun other inside distinct same => distinct (alone table member rfl other inside same)
  have counts (id : Nat) (other : id ≠ table.share)
      : ({ process with
          tables := process.tables.filter (·.id ≠ table.id)
          shareList := process.shareList.filter (·.id ≠ table.share) }).users id
        = process.users id := by
    have without := named.users_without member id
    rw [if_neg (Ne.symm other)] at without
    exact without.symm
  constructor
  · refine ⟨?_, ?_, ?_, ?_⟩
    · intro share inside
      obtain ⟨here, other⟩ := List.mem_filter.mp inside
      rw [counts share.id (by simpa using other)]
      exact balanced.used share here
    · intro other inside
      obtain ⟨inside, distinct⟩ := List.mem_filter.mp inside
      obtain ⟨share, here, uses⟩ := balanced.mapped other inside
      refine ⟨share, List.mem_filter.mpr ⟨here, ?_⟩, uses⟩
      simpa [uses] using others other inside (by simpa using distinct)
    · intro share inside
      obtain ⟨here, other⟩ := List.mem_filter.mp inside
      rw [counts share.id (by simpa using other)]
      exact balanced.attached share here
    · intro share inside
      exact balanced.once share (List.mem_filter.mp inside).1
  · refine ⟨(List.filter_sublist.map _).nodup named.shares,
      (List.filter_sublist.map _).nodup named.files,
      (List.filter_sublist.map _).nodup named.tables,
      fun share inside => named.newShare share (List.mem_filter.mp inside).1,
      fun other inside => named.newTable other (List.mem_filter.mp inside).1, ?_⟩
    intro share inside
    obtain ⟨here, apart⟩ := List.mem_filter.mp inside
    refine ⟨(named.objects share here).1, fun name => ?_⟩
    rw [(named.objects share here).2 name]
    constructor
    · intro ⟨other, inside, uses, names⟩
      refine ⟨other, List.mem_filter.mpr ⟨inside, ?_⟩, uses, names⟩
      simp only [ne_eq, decide_eq_true_eq]
      intro same
      obtain rfl := List.inj_on_of_nodup_map named.tables inside member same
      simp [uses] at apart
    · intro ⟨other, inside, uses, names⟩
      exact ⟨other, (List.mem_filter.mp inside).1, uses, names⟩

/-- A destruction of a table that shares its share leaves the share attached too often, or takes its
name away.
-/
theorem Balanced.leaves_others (balanced : process.Balanced) (named : process.Named)
    (member : table ∈ process.tables) (others : ¬ process.Alone (.destroy table.id))
    : ¬ (process.destroy table).Balanced := by
  intro kept
  simp only [Alone, not_forall] at others
  obtain ⟨same, inside, equal, other, there, uses, distinct⟩ := others
  obtain rfl := List.inj_on_of_nodup_map named.tables inside member equal
  obtain ⟨share, here, shares⟩ := balanced.mapped same inside
  let process' : ShareProcess :=
    { process with tables := process.tables.filter (·.id ≠ same.id) }
  have counts := named.users_without inside share.id
  rw [if_pos shares.symm] at counts
  have remaining : 0 < process'.users share.id :=
    List.countP_pos_iff.mpr ⟨other, List.mem_filter.mpr ⟨there, by simpa using distinct⟩,
      by simpa [shares] using uses⟩
  have attached := balanced.attached share here
  have found : (process'.releaseName same.share same.shareName).share same.share
      = some { share with objects := share.objects.erase same.shareName } := by
    rw [releaseName, update_share, ← shares]
    · have there : process'.share share.id = some share := share_eq named.shares here
      rw [there]
      rfl
    · exact fun _ => rfl
  change ((process'.releaseName same.share same.shareName).doDetach same.share).Balanced at kept
  by_cases idle : share.objects.erase same.shareName = []
  · -- The other tables have the same name, and the share gives up its own.
    have more : 1 < share.attachCount := by
      change process.users share.id = process'.users share.id + 1 at counts
      omega
    obtain ⟨after, stays, unnamed⟩ := doDetach_more found idle more
    have known := (kept.used after stays).1
    rw [unnamed] at known
    cases known
  · rw [doDetach_busy found idle] at kept
    have member' : { share with objects := share.objects.erase same.shareName }
        ∈ (process'.releaseName same.share same.shareName).shareList :=
      List.mem_of_find?_eq_some found
    have balance := kept.attached _ member'
    change share.attachCount = (process'.users share.id : Int) at balance
    change process.users share.id = process'.users share.id + 1 at counts
    omega

/-- A step keeps the balance exactly when no other table uses the share of one that goes. -/
theorem Balanced.step_iff (balanced : process.Balanced) (named : process.Named) (event : ShareEvent)
    : ((process.step event).Balanced ↔ process.Alone event)
        ∧ (process.Alone event → (process.step event).Named) := by
  suffices both : (process.Alone event → (process.step event).Balanced ∧ (process.step event).Named)
      ∧ (¬ process.Alone event → ¬ (process.step event).Balanced) by
    exact ⟨⟨fun kept => by_contra fun other => both.2 other kept, fun alone => (both.1 alone).1⟩,
      fun alone => (both.1 alone).2⟩
  cases event with
  | destroy id =>
      rcases found : process.tables.find? (·.id = id) with _ | table
      · simp only [step, found]
        have absent : ∀ table ∈ process.tables, table.id ≠ id := by
          intro table inside
          simpa using List.find?_eq_none.mp found table inside
        exact ⟨fun _ => ⟨balanced, named⟩, fun others =>
          absurd (fun table inside same => absurd same (absent table inside)) others⟩
      · have inside := List.mem_of_find?_eq_some found
        obtain rfl : table.id = id := by simpa using List.find?_some found
        simp only [step, found]
        exact ⟨fun alone => balanced.leaves named alone inside, balanced.leaves_others named inside⟩
  | create creation =>
      rw [step]
      by_cases mapped : ∃ share ∈ process.shareList, share.filename = creation.file
      · obtain ⟨share, here, file⟩ := mapped
        have only : ∀ other ∈ process.shareList, other.filename = creation.file → other = share :=
          fun other there same =>
            List.inj_on_of_nodup_map named.files there here (same.trans file.symm)
        by_cases fits : creation.master = true → creation.size ≤ share.size
        · have busy := balanced.busy named here
          obtain ⟨joins, fails⟩ :=
            create_existing named here file fits (balanced.used share here).1 busy
          have alone : process.Alone (.create creation)
              ↔ creation.found.magic = true ∧ creation.found.expectedBase = true
                ∧ creation.completes = true := by
            constructor
            · exact fun all => all share here file fits
            · intro ok other there same _
              exact ok
          rw [alone]
          refine ⟨fun ok => ?_, fun failed kept => ?_⟩
          · rw [joins ok]
            exact balanced.joins named here _
          · obtain ⟨size, made⟩ := fails failed
            rw [made] at kept
            have member : { share with attachCount := share.attachCount + 1, size := size share }
                ∈ (process.update share.id fun share =>
                  { share with attachCount := share.attachCount + 1, size := size share }).shareList :=
              List.mem_map.mpr ⟨share, here, if_pos rfl⟩
            have balance := kept.attached _ member
            change share.attachCount + 1 = (process.users share.id : Int) at balance
            have before := balanced.attached share here
            omega
        · rw [create_refused named here file fits]
          refine ⟨fun _ => ⟨⟨balanced.used, balanced.mapped, balanced.attached, balanced.once⟩,
            ⟨named.shares, named.files, named.tables, named.newShare, named.newTable,
              named.objects⟩⟩, fun others => ?_⟩
          refine absurd ?_ others
          intro other there same room
          exact absurd (only other there same ▸ room) fits
      · simp only [not_exists, not_and] at mapped
        exact ⟨fun _ => balanced.starts named mapped (create_new named mapped), fun others =>
          absurd (fun share here same => absurd same (mapped share here)) others⟩

theorem new_balanced : ShareProcess.new.Balanced ∧ ShareProcess.new.Named :=
  ⟨⟨nofun, nofun, nofun, nofun⟩,
    ⟨List.nodup_nil, List.nodup_nil, List.nodup_nil, nofun, nofun, nofun⟩⟩

end ShareProcess

/-- In every run of creations and destructions, the shares are mapped, named, attached and
initialised as the tables need it in every state, exactly when in every step no other table uses the
share of a table that is destroyed or whose creation fails.
-/
theorem shares_balanced (events : List ShareEvent)
    : (∀ before, before <+: events → (ShareProcess.new.run before).Balanced)
        ↔ ∀ before event, before ++ [event] <+: events →
          (ShareProcess.new.run before).Alone event := by
  have next (before : List ShareEvent) (event : ShareEvent)
      : ShareProcess.new.run (before ++ [event]) = (ShareProcess.new.run before).step event := by
    rw [ShareProcess.run, List.foldl_append]
    rfl
  have shorter {before : List ShareEvent} {event : ShareEvent}
      (within : before ++ [event] <+: events)
      : before <+: events :=
    (List.prefix_append before [event]).trans within
  constructor
  · intro balanced
    have named (before : List ShareEvent) (within : before <+: events)
        : (ShareProcess.new.run before).Named := by
      induction before using List.reverseRecOn with
      | nil => exact ShareProcess.new_balanced.2
      | append_singleton before event ih =>
          have here := ih (shorter within)
          have after := balanced _ within
          rw [next] at after ⊢
          have step := (balanced before (shorter within)).step_iff here event
          exact step.2 (step.1.mp after)
    intro before event within
    have after := balanced _ within
    rw [next] at after
    exact ((balanced before (shorter within)).step_iff (named before (shorter within)) event).1.mp
      after
  · intro alone
    have both (before : List ShareEvent) (within : before <+: events)
        : (ShareProcess.new.run before).Balanced ∧ (ShareProcess.new.run before).Named := by
      induction before using List.reverseRecOn with
      | nil => exact ShareProcess.new_balanced
      | append_singleton before event ih =>
          obtain ⟨balanced, named⟩ := ih (shorter within)
          have step := balanced.step_iff named event
          have here := alone before event within
          rw [next]
          exact ⟨step.1.mpr here, step.2 here⟩
    exact fun before within => (both before within).1

/-- Two tables are created on one file, and destroyed; then a third is created. -/
def twoTables : List ShareEvent :=
  let creation (name : CString) : Creation :=
    { master := true
      shareName := name
      file := [102]
      size := 100
      maps := true
      found := { magic := true, expectedBase := true, mapsize := 100 }
      completes := true }
  [.create (creation [97]), .create (creation [98]), .destroy 0, .destroy 1, .create (creation [99])]

/-- The share stays mapped without a name when both tables are gone, and is then initialised a second
time.
-/
theorem twoTables_leaks
    : ((ShareProcess.new.run (twoTables.take 4)).shareList.map
          (fun share => (share.name, share.attachCount, share.inits)) = [(none, 1, 1)]
        ∧ (ShareProcess.new.run (twoTables.take 4)).tables = [])
      ∧ (ShareProcess.new.run twoTables).shareList.map (fun share => share.inits) = [2]
      ∧ ¬ ∀ before, before <+: twoTables → (ShareProcess.new.run before).Balanced := by
  have leaks : (ShareProcess.new.run (twoTables.take 4)).shareList.map
        (fun share => (share.name, share.attachCount, share.inits)) = [(none, 1, 1)]
      ∧ (ShareProcess.new.run (twoTables.take 4)).tables = [] := by
    decide
  refine ⟨leaks, by decide, fun balanced => ?_⟩
  have four := balanced (twoTables.take 4) (List.take_prefix _ _)
  obtain ⟨share, here, same⟩ := List.mem_map.mp (leaks.1 ▸ List.mem_singleton_self _)
  have known := (four.used share here).1
  rw [(Prod.mk.inj same).1] at known
  cases known

end SpeedTables.Shared
