import Win98Modern.Kernel64.VadPages

/-!
# Page frames of a process

The descriptors of `Kernel64.Vad` with what the faults of the process do to its
page table: `user_fault_in` (`vad.c`), `view_fault` (`ipc_section.c`) and
`ldr_image_fault` (`ldr.c`), and who holds each page frame.

`pmm_alloc` hands out any frame that nobody holds: each step names the frames it
would be given, and a frame that somebody holds counts as a failure.  The frames
of page tables and of section leaves are taken from the same pool, so a mapping or a section page may
fail to be made; that is a truth value of the step.  `ldr_image_fault` reads a
page with interrupts on, so it is two steps with a held frame between them.  The
contents of pages are left out, and so are counters.
-/

namespace Win98Modern.Kernel64

open Function

/-! ### The machine -/

/-- Who holds a page frame: nobody; the process, for an anonymous or image page;
a section, or the copy-on-write list of a view; somebody else. -/
inductive Owner
  | free | own | view | other
  deriving DecidableEq, Repr

/-- `struct view`: the range, the section with the index of its first page, and
the private copies by page index. -/
structure View where
  base : Nat
  size : Nat
  sec : Nat
  first : Nat
  cow : List (Nat × Nat)

/-- A page that `ldr_image_fault` has a frame for and is reading. -/
structure Reading where
  va : Nat
  img : Nat
  pa : Nat
  deriving DecidableEq

/-- The process, its views, the pages of all sections, the images by their
pointer (base and size), and the holder of each frame. -/
structure Machine where
  proc : Process
  teardown : Bool
  views : List View
  npages : Nat → Nat
  section_page : Nat → Nat → Option Nat
  images : Nat → Nat × Nat
  reading : List Reading
  owner : Nat → Owner

def Machine.hold (m : Machine) (pa : Nat) (o : Owner) : Machine :=
  { m with owner := update m.owner pa o }

/-- `pmm_alloc` for a new holder, with the frame it would return. -/
def pmmAlloc (m : Machine) (fr : Option Nat) (new : Owner) : Option (Nat × Machine) :=
  match fr with
  | none => none
  | some pa =>
    if m.owner pa = .free then some (pa, m.hold pa new) else none

/-- `pmm_free` outside `vad_free`. -/
def Machine.release (m : Machine) (pa : Nat) : Machine := m.hold pa .free

/-- `vm_map` of the page at `va`, when its tables could be made. -/
def Machine.map (m : Machine) (va : Nat) (e : Pte) : Machine := { m with proc := vmMap m.proc va e }

/-- A new array with one descriptor's protection changed. -/
def Machine.setProt (m : Machine) (i : Nat) (v : Vad) (prot : Nat) : Machine :=
  { m with proc := { m.proc with vads := m.proc.vads.set i { v with prot := prot } } }

inductive FaultStatus
  | done | accessViolation | guardPage | noMemory | inPageError
  deriving DecidableEq, Repr

/-- What a fault is given: the frames `pmm_alloc` returns in order, whether
`kzalloc`, the leaf of a section and a new mapping could be made, and whether
the image is still there (`shz_ldr_image_acquire`). -/
structure Supply where
  fr : Option Nat
  fr' : Option Nat
  kz : Bool
  leaf : Bool
  mapped : Bool
  acquired : Bool

/-! ### Faults in views -/

def protWritable (prot : Nat) : Bool :=
  prot % 0x100 = PAGE_READWRITE ∨ prot % 0x100 = PAGE_EXECUTE_READWRITE

def protCow (prot : Nat) : Bool :=
  prot % 0x100 = PAGE_WRITECOPY ∨ prot % 0x100 = PAGE_EXECUTE_WRITECOPY

def protExec (prot : Nat) : Bool :=
  PAGE_EXECUTE ≤ prot % 0x100 ∧ prot % 0x100 ≤ PAGE_EXECUTE_WRITECOPY

/-- `view_at`, with the index of the view. -/
def viewAt (m : Machine) (addr : Nat) : Option (Nat × View) :=
  let i := m.views.findIdx (fun v => decide (addr ≥ v.base ∧ addr < add64 v.base v.size))
  (m.views[i]?).map (fun v => (i, v))

def cowLookup (v : View) (idx : Nat) : Option Nat := (v.cow.find? (fun c => c.1 = idx)).map Prod.snd

/-- `section_page` with `create` set, and the machine afterwards. -/
def sectionPage (m : Machine) (sec idx : Nat) (leaf : Bool) (fr : Option Nat) :
    Option (Nat × Machine) :=
  if idx ≥ m.npages sec then none
  else
    match m.section_page sec idx with
    | some pa => some (pa, m)
    | none =>
      if !leaf then none
      else
        match pmmAlloc m fr .view with
        | none => none
        | some (pa, m) => some (pa, { m with
            section_page := update m.section_page sec
              (update (m.section_page sec) idx (some pa)) })

/-- The frame that `view_fault` maps: the private copy, a new one on the first
write to a copy-on-write view, or the section's page. -/
def viewPage (m : Machine) (i : Nat) (v : View) (idx prot : Nat) (write : Bool) (s : Supply) :
    Except FaultStatus Nat × Machine :=
  match cowLookup v idx with
  | some pa => (.ok pa, m)
  | none =>
    match sectionPage m v.sec idx s.leaf s.fr with
    | none => (.error (if idx ≥ m.npages v.sec then .accessViolation else .noMemory), m)
    | some (spa, m) =>
      if protCow prot ∧ write then
        if !s.kz then (.error .noMemory, m)
        else
          match pmmAlloc m s.fr' .view with
          | none => (.error .noMemory, m)
          | some (pa, m) =>
            (.ok pa, { m with views := m.views.set i { v with cow := (idx, pa) :: v.cow } })
      else (.ok spa, m)

def viewFault (m : Machine) (di : Nat) (d : Vad) (addr : Nat) (write exec : Bool) (s : Supply) :
    FaultStatus × Machine :=
  match viewAt m addr with
  | none => (.accessViolation, m)
  | some (i, v) =>
    let page := pageFloor addr
    if d.prot % 0x100 = PAGE_NOACCESS then (.accessViolation, m)
    else if d.prot / PAGE_GUARD % 2 = 1 then (.guardPage, m.setProt di d (d.prot - PAGE_GUARD))
    else if write ∧ ¬protWritable d.prot ∧ ¬protCow d.prot then (.accessViolation, m)
    else if exec ∧ ¬protExec d.prot then (.accessViolation, m)
    else
      let idx := v.first + (page - v.base) / PAGE_SIZE
      let cur := m.proc.pml4 (page / PAGE_SIZE)
      if cur.any (fun e => !write || e.writable) then (.done, m)
      else
        match viewPage m i v idx d.prot write s with
        | (.error st, m) => (st, m)
        | (.ok pa, m) =>
          let shared := (m.views[i]?).all (fun v => cowLookup v idx ≠ some pa)
          let e := protToPtflags d.prot pa
          let e := if protCow d.prot ∧ shared then { e with writable := false } else e
          -- the old entry goes first, so a mapping that cannot be made leaves the page unmapped
          let m := { m with proc := { m.proc with
            pml4 := update m.proc.pml4 (page / PAGE_SIZE) none } }
          if s.mapped ∨ cur.isSome then (.done, m.map page e) else (.noMemory, m)

/-! ### Faults in anonymous and image pages -/

/-- `ldr_image_fault` up to the reading. -/
def ldrImageFault (m : Machine) (v : Vad) (addr : Nat) (s : Supply) : FaultStatus × Machine :=
  let va := pageFloor addr
  if m.teardown ∨ v.img = 0 ∨ !s.acquired then (.accessViolation, m)
  else
    let im := m.images v.img
    if va < im.1 ∨ va - im.1 ≥ im.2 then (.accessViolation, m)
    else
      match pmmAlloc m s.fr .own with
      | none => (.noMemory, m)
      | some (pa, m) => (.done, { m with reading := ⟨va, v.img, pa⟩ :: m.reading })

/-- `ldr_image_fault` from the end of the reading on: whether the file could be
read, whether the image has been retired, whether the page can be mapped. -/
def ldrImageRead (m : Machine) (k : Nat) (ok retired mapped : Bool) : FaultStatus × Machine :=
  match m.reading[k]? with
  | none => (.done, m)
  | some r =>
    let m := { m with reading := m.reading.eraseIdx k }
    if !ok then (.inPageError, m.release r.pa)
    else
      match vadFind m.proc.vads r.va with
      | none => (.accessViolation, m.release r.pa)
      | some (_, v) =>
        if m.teardown ∨ retired ∨ v.img ≠ r.img ∨ v.state ≠ .committed then
          (.accessViolation, m.release r.pa)
        else if (m.proc.pml4 (r.va / PAGE_SIZE)).isSome then (.done, m.release r.pa)
        else if !mapped then (.noMemory, m.release r.pa)
        else (.done, m.map r.va (protToPtflags v.prot r.pa))

/-- What the entry lacks of what the descriptor grants. -/
def lacks (e want : Pte) (write exec : Bool) : Bool :=
  (write && !e.writable && want.writable) || (exec && e.noExecute && !want.noExecute) ||
    (!e.user && want.user)

/-- `user_fault_in_locked`. -/
def userFaultIn (m : Machine) (addr : Nat) (write exec : Bool) (s : Supply) :
    FaultStatus × Machine :=
  if m.teardown then (.accessViolation, m)
  else if addr < USER_MIN ∨ addr ≥ USER_TOP then (.accessViolation, m)
  else
    match vadFind m.proc.vads (pageFloor addr) with
    | none => (.accessViolation, m)
    | some (i, v) =>
      let base := v.prot % 0x100
      if v.state ≠ .committed then (.accessViolation, m)
      else if v.kind = .view then viewFault m i v addr write exec s
      else if base = PAGE_NOACCESS then (.accessViolation, m)
      else if v.prot / PAGE_GUARD % 2 = 1 then (.guardPage, m.setProt i v (v.prot - PAGE_GUARD))
      else if write ∧ ¬(base = PAGE_READWRITE ∨ base = PAGE_WRITECOPY ∨
          base = PAGE_EXECUTE_READWRITE ∨ base = PAGE_EXECUTE_WRITECOPY) then (.accessViolation, m)
      else if exec ∧ ¬base ≥ PAGE_EXECUTE then (.accessViolation, m)
      else
        match m.proc.pml4 (pageFloor addr / PAGE_SIZE) with
        | some e =>
          let want := protToPtflags v.prot e.pa
          if v.img = 0 ∧ lacks e want write exec then (.done, m.map (pageFloor addr) want)
          else (.done, m)
        | none =>
          if v.img ≠ 0 then ldrImageFault m v addr s
          else
            match pmmAlloc m s.fr .own with
            | none => (.noMemory, m)
            | some (pa, m) =>
              if s.mapped then (.done, m.map (pageFloor addr) (protToPtflags v.prot pa))
              else (.noMemory, m.release pa)

/-! ### Steps -/

/-- A step of the machine; `other` is a frame that the rest of the system takes
or gives back. -/
inductive Event
  | fault (addr : Nat) (write exec : Bool) (s : Supply)
  | imageRead (k : Nat) (ok retired mapped : Bool)
  | alloc (base size type prot : Nat) (kind : VadKind) (kz kz' : Bool)
  | free (base size type : Nat) (kz kz' : Bool)
  | protect (base size newProt : Nat) (kz kz' : Bool)
  | other (pa : Nat)

/-- The frames that `vad_free` passes to `pmm_free`, in order. -/
def freedBy (p : Process) (base size type : Nat) (kz kz' : Bool) : List Nat :=
  (vadFree p base size type kz kz').proc.freed.drop p.freed.length

/-- The rest of the system takes a frame, or gives one of its own back. -/
def takeOther (o : Owner) : Owner :=
  match o with
  | .free => .other
  | .other => .free
  | o => o

def Machine.step (m : Machine) : Event → Machine
  | .fault addr write exec s => (userFaultIn m addr write exec s).2
  | .imageRead k ok retired mapped => (ldrImageRead m k ok retired mapped).2
  | .alloc base size type prot kind kz kz' =>
    { m with proc := (vadAlloc m.proc base size type prot kind kz kz').proc }
  | .free base size type kz kz' =>
    let freed := freedBy m.proc base size type kz kz'
    { m with proc := (vadFree m.proc base size type kz kz').proc,
             owner := fun pa => if pa ∈ freed then .free else m.owner pa }
  | .protect base size newProt kz kz' =>
    { m with proc := (vadProtect m.proc base size newProt kz kz').2.2 }
  | .other pa => m.hold pa (takeOther (m.owner pa))

end Win98Modern.Kernel64
