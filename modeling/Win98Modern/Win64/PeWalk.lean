import Win98Modern.Win64.PeParse

/-!
# The tables of an image: exports, imports, base relocations and delay imports

`pe_find_export`, `pe_walk_imports`, `pe_walk_relocs` and `pe_walk_delay_imports`.  A walk calls `fn` back
with a state of its own, and a nonzero result ends it.  The loops over descriptors and thunks count down
what is left of the source's own guards; the loop over relocation blocks is given as many rounds as the
directory has bytes.
-/

namespace Win98Modern.Pe

open Reading

/-! ### Exports -/

/-- `pe_match_export_name`, at `p` with `n` bytes left: whether the text there is `name`, of which `same`
says that it agrees so far. -/
def matchName (f : Bytes) (p : Nat) : Nat → List UInt8 → Bool → Result Bool
  | 0, _, _ => .error (.code PE_E_STRING)
  | n + 1, name, same => do
    let ch ← f.rd8 p
    if ch = 0 then pure (same && name.isEmpty)
    else do
      refuse (ch < 0x20 ∨ 0x7e < ch) PE_E_STRING
      matchName f (p + 1) n name.tail (same && name.head? == some ch)

def matchExportName (f : Bytes) (o : Info) (rva : Nat) (name : List UInt8) : Result Bool := do
  let sp ← recode PE_E_STRING (rvaToOffset f o rva)
  matchName f sp.off sp.avail name true

/-- The value of `width` bytes at `rva`, all of them in one piece of the file; `e` if they are not. -/
def entryAt (f : Bytes) (o : Info) (e : Int) (width rva : Nat) : Result Nat := do
  let sp ← recode e (rvaToOffset f o rva)
  refuse (sp.avail < width) e
  f.rd width sp.off

structure Exports where
  base : Nat
  nfunc : Nat
  nnames : Nat
  fnRva : Nat
  namesRva : Nat
  ordsRva : Nat

def readExports (f : Bytes) (o : Info) : Result Exports := do
  let sp ← recode PE_E_EXPORT (rvaToOffset f o (o.dirRva 0))
  refuse (sp.avail < 40) PE_E_EXPORT
  let base ← f.rd 4 (sp.off + 16)
  let nfunc ← f.rd 4 (sp.off + 20)
  let nnames ← f.rd 4 (sp.off + 24)
  let fnRva ← f.rd 4 (sp.off + 28)
  let namesRva ← f.rd 4 (sp.off + 32)
  let ordsRva ← f.rd 4 (sp.off + 36)
  refuse (65536 < nfunc ∨ 65536 < nnames) PE_E_EXPORT
  pure { base, nfunc, nnames, fnRva, namesRva, ordsRva }

/-- The index of the function exported as `name`, among the `n` names from the `i`-th on. -/
def findName (f : Bytes) (o : Info) (x : Exports) (name : List UInt8) : Nat → Nat → Result Nat
  | 0, _ => .error (.code PE_E_NOT_FOUND)
  | n + 1, i => do
    let nameRva ← entryAt f o PE_E_EXPORT 4 (u32 (x.namesRva + i * 4))
    let same ← recode PE_E_EXPORT (matchExportName f o nameRva name)
    if same then do
      let k ← entryAt f o PE_E_EXPORT 2 (u32 (x.ordsRva + i * 2))
      refuse (x.nfunc ≤ k) PE_E_EXPORT
      pure k
    else findName f o x name n (i + 1)

inductive Wanted
  | name (s : List UInt8)
  | ordinal (n : Nat)

/-- The index in the function table of what is looked up. -/
def exportIndex (f : Bytes) (o : Info) (x : Exports) : Wanted → Result Nat
  | .ordinal n => do
    refuse (n < x.base ∨ x.nfunc ≤ n - x.base) PE_E_NOT_FOUND
    pure (n - x.base)
  | .name s => findName f o x s x.nnames 0

inductive Export
  | rva (n : Nat)
  | forward (s : List UInt8)

/-- `pe_find_export`, with the size of the buffer for a forwarder's text, if there is one. -/
def findExport (f : Bytes) (o : Info) (w : Wanted) (forwardCap : Option Nat) : Result Export := do
  refuse (o.dirRva 0 = 0 ∨ o.dirSize 0 < 40) PE_E_NOT_FOUND
  let x ← readExports f o
  let i ← exportIndex f o x w
  let target ← entryAt f o PE_E_EXPORT 4 (u32 (x.fnRva + i * 4))
  refuse (target = 0) PE_E_NOT_FOUND
  if o.dirRva 0 ≤ target ∧ target - o.dirRva 0 < o.dirSize 0 then
    match forwardCap with
    | none => .error (.code PE_E_FORWARD)
    | some cap => do
      let s ← recode PE_E_FORWARD (readString f o target cap)
      pure (.forward s)
  else do
    refuse (o.sizeOfImage ≤ target) PE_E_EXPORT
    pure (.rva target)

/-! ### Imports -/

/-- One call of the import walk: the DLL, the symbol's text in the file or none for an ordinal, the hint or
ordinal, and the slot of the import address table. -/
structure Import where
  dll : List UInt8
  symbol : Option Nat
  hint : Nat
  slot : Nat

/-- What a thunk imports by name, from the hint and the text at `rva`. -/
def hintName (f : Bytes) (o : Info) (e : Int) (dll : List UInt8) (slot rva : Nat) : Result Import := do
  let sp ← recode e (rvaToOffset f o rva)
  refuse (sp.avail < 3) e
  let sym ← recode e (symbolView f o (u32 (rva + 2)))
  let hint ← f.rd 2 sp.off
  pure ⟨dll, some sym, hint, slot⟩

/-- What the `idx`-th thunk imports, if it is not the last. -/
def importThunk (f : Bytes) (o : Info) (dll : List UInt8) (ilt iat idx : Nat) : Result (Option Import) := do
  let thunk ← entryAt f o PE_E_IMPORT 8 (u32 (ilt + idx * 8))
  if thunk = 0 then pure none
  else do
    let slot := u32 (iat + idx * 8)
    refuse (¬inRange slot 8 o.sizeOfImage) PE_E_IMPORT
    if thunk / 2 ^ 63 ≠ 0 then pure (some ⟨dll, none, thunk % 65536, slot⟩)
    else do
      refuse (thunk / 2 ^ 31 ≠ 0) PE_E_IMPORT
      let x ← hintName f o PE_E_IMPORT dll slot thunk
      pure (some x)

section Walks

variable {σ : Type}

/-- The thunks of a DLL from the `idx`-th on; `n` are allowed. -/
def importThunks (f : Bytes) (o : Info) (fn : σ → Import → σ × Int) (dll : List UInt8) (ilt iat : Nat) :
    Nat → Nat → Failing σ (Fault Int) Unit
  | 0, _ => .fail (.code PE_E_IMPORT)
  | n + 1, idx => do
    let x ← .read (importThunk f o dll ilt iat idx)
    match x with
    | none => pure ()
    | some x => do
      .call fn x
      importThunks f o fn dll ilt iat n (idx + 1)

/-- The DLL an import descriptor names and its two tables, if it is not the last. -/
def importDescriptor (f : Bytes) (o : Info) (rva : Nat) : Result (Option (List UInt8 × Nat × Nat)) := do
  let sp ← recode PE_E_IMPORT (rvaToOffset f o rva)
  refuse (sp.avail < 20) PE_E_IMPORT
  let ilt ← f.rd 4 sp.off
  let nameRva ← f.rd 4 (sp.off + 12)
  let iat ← f.rd 4 (sp.off + 16)
  if ilt = 0 ∧ nameRva = 0 ∧ iat = 0 then pure none
  else do
    refuse (nameRva = 0 ∨ iat = 0) PE_E_IMPORT
    let dll ← recode PE_E_IMPORT (readString f o nameRva 128)
    pure (some (dll, if ilt = 0 then iat else ilt, iat))

def maxImportThunks : Nat := 262145

/-- The descriptors from `rva` on; `n` are allowed. -/
def importDescriptors (f : Bytes) (o : Info) (fn : σ → Import → σ × Int) :
    Nat → Nat → Failing σ (Fault Int) Unit
  | 0, _ => .fail (.code PE_E_IMPORT)
  | n + 1, rva => do
    let d ← .read (importDescriptor f o rva)
    match d with
    | none => pure ()
    | some (dll, ilt, iat) => do
      importThunks f o fn dll ilt iat maxImportThunks 0
      importDescriptors f o fn n (u32 (rva + 20))

def walkImports (f : Bytes) (o : Info) (fn : σ → Import → σ × Int) : Failing σ (Fault Int) Unit :=
  if o.dirRva 1 = 0 then pure () else importDescriptors f o fn 512 (o.dirRva 1)

/-! ### Base relocations -/

/-- The bytes a relocation type patches; none for the types of other machines. -/
def relocWidth (type : Nat) : Nat :=
  match type with
  | 1 => 2
  | 2 => 2
  | 4 => 2
  | 3 => 4
  | 10 => 8
  | _ => 0

/-- One call of the relocation walk: the address, and the type with the low half for HIGHADJ above it. -/
structure Fixup where
  rva : Nat
  type : Nat
  low : Nat

/-- The `n` entries from the `i`-th on of the block of `page` whose entries begin at `p`. -/
def relocEntries (f : Bytes) (o : Info) (fn : σ → Fixup → σ × Int) (p page : Nat) :
    Nat → Nat → Failing σ (Fault Int) Unit
  | 0, _ => pure ()
  | n + 1, i => do
    let e ← .read (f.rd 2 (p + i * 2))
    let type := e / 4096
    let addr := u32 (page + e % 4096)
    if type = 0 then relocEntries f o fn p page n (i + 1)
    else do
      .read (refuse (relocWidth type = 0 ∨ ¬inRange addr (relocWidth type) o.sizeOfImage) PE_E_RELOC)
      if type = 4 then
        -- the entry after it is the low half, so it has to be there
        match n with
        | 0 => .fail (.code PE_E_RELOC)
        | n + 1 => do
          let low ← .read (f.rd 2 (p + (i + 1) * 2))
          .call fn ⟨addr, type, low⟩
          relocEntries f o fn p page n (i + 2)
      else do
        .call fn ⟨addr, type, 0⟩
        relocEntries f o fn p page n (i + 1)

/-- The block at `rva`: where its entries begin, its page and its size. -/
def relocBlock (f : Bytes) (o : Info) (rva remaining : Nat) : Result (Nat × Nat × Nat) := do
  let sp ← recode PE_E_RELOC (rvaToOffset f o rva)
  refuse (sp.avail < 8) PE_E_RELOC
  let page ← f.rd 4 sp.off
  let block ← f.rd 4 (sp.off + 4)
  refuse (block < 8 ∨ remaining < block ∨ block % 2 ≠ 0 ∨ o.sizeOfImage ≤ page ∨ page % 4096 ≠ 0) PE_E_RELOC
  refuse (sp.avail < block) PE_E_RELOC
  pure (sp.off + 8, page, block)

def relocBlocks (f : Bytes) (o : Info) (fn : σ → Fixup → σ × Int) : Nat → Nat → Nat → Failing σ (Fault Int) Unit
  | rounds, rva, remaining =>
    if remaining < 8 then .read (refuse (remaining ≠ 0) PE_E_RELOC)
    else match rounds with
      | 0 => .fail .stuck
      | rounds + 1 => do
        let (p, page, block) ← .read (relocBlock f o rva remaining)
        relocEntries f o fn p page ((block - 8) / 2) 0
        relocBlocks f o fn rounds (u32 (rva + block)) (remaining - block)

def walkRelocs (f : Bytes) (o : Info) (fn : σ → Fixup → σ × Int) : Failing σ (Fault Int) Unit :=
  if o.dirRva 5 = 0 ∨ o.dirSize 5 = 0 then pure ()
  else relocBlocks f o fn (o.dirSize 5) (o.dirRva 5) (o.dirSize 5)

/-! ### Delay imports -/

/-- `pe_delay_desc_t`. -/
structure DelayDesc where
  attributes : Nat
  nameRva : Nat
  moduleHandleRva : Nat
  iatRva : Nat
  intRva : Nat
  boundIatRva : Nat
  unloadIatRva : Nat
  timestamp : Nat
  dll : List UInt8

/-- A field of a descriptor that holds virtual addresses, as an address of the image; zero stays zero. -/
def legacyField (o : Info) (va : Nat) : Result Nat :=
  if va = 0 then pure 0
  else do
    refuse (va < o.imageBase ∨ o.sizeOfImage ≤ va - o.imageBase) PE_E_DELAY
    pure (u32 (va - o.imageBase))

/-- The fields of a descriptor, converted if they are virtual addresses. -/
def delayFields (o : Info) (d : DelayDesc) : Result DelayDesc :=
  if d.attributes % 2 ≠ 0 then pure d
  else do
    let nameRva ← legacyField o d.nameRva
    let moduleHandleRva ← legacyField o d.moduleHandleRva
    let iatRva ← legacyField o d.iatRva
    let intRva ← legacyField o d.intRva
    let boundIatRva ← legacyField o d.boundIatRva
    let unloadIatRva ← legacyField o d.unloadIatRva
    pure { d with nameRva, moduleHandleRva, iatRva, intRva, boundIatRva, unloadIatRva }

/-- The descriptor at `rva`, if it is not the last. -/
def delayDescriptor (f : Bytes) (o : Info) (rva : Nat) : Result (Option DelayDesc) := do
  let sp ← recode PE_E_DELAY (rvaToOffset f o rva)
  refuse (sp.avail < 32) PE_E_DELAY
  let attributes ← f.rd 4 sp.off
  let nameRva ← f.rd 4 (sp.off + 4)
  let moduleHandleRva ← f.rd 4 (sp.off + 8)
  let iatRva ← f.rd 4 (sp.off + 12)
  let intRva ← f.rd 4 (sp.off + 16)
  let boundIatRva ← f.rd 4 (sp.off + 20)
  let unloadIatRva ← f.rd 4 (sp.off + 24)
  let timestamp ← f.rd 4 (sp.off + 28)
  if nameRva = 0 ∧ iatRva = 0 ∧ intRva = 0 then pure none
  else do
    let d ← delayFields o { attributes, nameRva, moduleHandleRva, iatRva, intRva, boundIatRva, unloadIatRva,
                            timestamp, dll := [] }
    refuse (d.nameRva = 0 ∨ d.iatRva = 0 ∨ d.intRva = 0 ∨ d.moduleHandleRva = 0) PE_E_DELAY
    refuse (¬inRange d.moduleHandleRva 8 o.sizeOfImage) PE_E_DELAY
    let dll ← recode PE_E_DELAY (readString f o d.nameRva 128)
    pure (some { d with dll })

/-- Where the hint and name of a thunk are: an address of the image, or a virtual one. -/
def delayHintRva (o : Info) (d : DelayDesc) (thunk : Nat) : Result Nat :=
  if d.attributes % 2 = 0 then do
    refuse (thunk < o.imageBase ∨ o.sizeOfImage ≤ thunk - o.imageBase) PE_E_DELAY
    pure (u32 (thunk - o.imageBase))
  else do
    refuse (thunk / 2 ^ 31 ≠ 0) PE_E_DELAY
    pure (u32 thunk)

/-- What the `idx`-th thunk of a descriptor imports, if it is not the last. -/
def delayThunk (f : Bytes) (o : Info) (d : DelayDesc) (idx : Nat) : Result (Option Import) := do
  let thunk ← entryAt f o PE_E_DELAY 8 (u32 (d.intRva + idx * 8))
  if thunk = 0 then pure none
  else do
    refuse (¬inRange (d.iatRva + idx * 8) 8 o.sizeOfImage) PE_E_DELAY
    let slot := u32 (d.iatRva + idx * 8)
    if thunk / 2 ^ 63 ≠ 0 then pure (some ⟨d.dll, none, thunk % 65536, slot⟩)
    else do
      let hn ← delayHintRva o d thunk
      let x ← hintName f o PE_E_DELAY d.dll slot hn
      pure (some x)

def delayThunks (f : Bytes) (o : Info) (fn : σ → DelayDesc × Import → σ × Int) (d : DelayDesc) :
    Nat → Nat → Failing σ (Fault Int) Unit
  | 0, _ => .fail (.code PE_E_DELAY)
  | n + 1, idx => do
    let x ← .read (delayThunk f o d idx)
    match x with
    | none => pure ()
    | some x => do
      .call fn (d, x)
      delayThunks f o fn d n (idx + 1)

def maxDelayThunks : Nat := 65537

def delayDescriptors (f : Bytes) (o : Info) (fn : σ → DelayDesc × Import → σ × Int) :
    Nat → Nat → Failing σ (Fault Int) Unit
  | 0, _ => .fail (.code PE_E_DELAY)
  | n + 1, rva => do
    let d ← .read (delayDescriptor f o rva)
    match d with
    | none => pure ()
    | some d => do
      delayThunks f o fn d maxDelayThunks 0
      delayDescriptors f o fn n (u32 (rva + 32))

def walkDelayImports (f : Bytes) (o : Info) (fn : σ → DelayDesc × Import → σ × Int) : Failing σ (Fault Int) Unit :=
  if o.dirRva 13 = 0 then pure () else delayDescriptors f o fn 1024 (o.dirRva 13)

end Walks

end Win98Modern.Pe
