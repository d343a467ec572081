import Win98Modern.Win64.PeChecked

/-!
# Nothing is read outside an accepted file

Every reading of the tables of an image that `peParse` accepted, and every walk over them, ends with a
result or an error of its own; a walk keeps what its call back keeps on the slots and locations that lie
inside the image.
-/

namespace Win98Modern.Pe

open Reading Failing Clean Bytes

section

variable {f : Bytes} {o : Info} (hc : Checked f o)

include hc

/-! ### Addresses and texts -/

variable {i rva n p page : Nat} {sp : Span} {e : Int} {dll : List UInt8} {x : Import}

theorem Checked.getSection (hi : i < o.nsections) : getSection f o i = .ok (sectionAt f o i) :=
  getSection_of_lt hc.table hi

theorem clean_findBacked (rva n i : Nat) (hi : i + n ≤ o.nsections) : Clean (findBacked f o rva n i) := by
  induction n generalizing i with
  | zero => exact clean_code _
  | succ n ih =>
    rw [findBacked, hc.getSection (by omega : i < o.nsections)]
    refine bind (clean_ok _) fun s hs => ite (fun _ => ?_) fun _ => ih (i + 1) (by omega)
    exact clean_refuse.bind fun _ _ => clean_pure _

omit hc in
theorem findBacked_inside (h : findBacked f o rva n i = .ok sp) : sp.off + sp.avail ≤ f.size := by
  induction n generalizing i with
  | zero => cases h
  | succ n ih =>
    rw [findBacked, bind_eq_ok] at h
    obtain ⟨s, hs, h⟩ := h
    simp only at h
    split at h
    · simp only [bind_eq_ok, refuse_eq_ok] at h
      obtain ⟨_, hoff, h⟩ := h
      cases h
      simp only
      omega
    · exact ih h

theorem clean_rvaToOffset (rva : Nat) : Clean (rvaToOffset f o rva) := by
  exact ite (fun _ => clean_ok _) fun _ => clean_findBacked hc rva _ 0 (by omega)

/-- The bytes behind an address are in the file. -/
theorem rvaToOffset_inside (h : rvaToOffset f o rva = .ok sp) : sp.off + sp.avail ≤ f.size := by
  rw [rvaToOffset] at h
  split at h
  · cases h
    have := hc.headers_file
    simp only
    omega
  · exact findBacked_inside h

/-- A reading of what is behind an address, in which only what the span has is read. -/
theorem clean_at {α : Type} {g : Span → Result α}
    (h : ∀ sp : Span, sp.off + sp.avail ≤ f.size → Clean (g sp)) :
    Clean (recode e (rvaToOffset f o rva) >>= g) :=
  ((clean_rvaToOffset hc rva).recode e).bind fun sp hsp =>
    h sp (rvaToOffset_inside hc (recode_eq_ok.1 hsp))

omit hc in
theorem clean_text (h : p + n ≤ f.size) : Clean (text f p n) := by
  induction n generalizing p with
  | zero => exact clean_code _
  | succ n ih =>
    rw [text]
    refine (clean_rd8 (by omega)).bind fun ch _ => ite (fun _ => clean_pure _) fun _ => ?_
    exact clean_refuse.bind fun _ _ => (ih (by omega)).bind fun _ _ => clean_pure _

theorem clean_readString (rva cap : Nat) : Clean (readString f o rva cap) := by
  refine clean_at hc fun sp hsp => clean_text ?_
  omega

theorem clean_symbolView (rva : Nat) : Clean (symbolView f o rva) :=
  clean_at hc fun _ hsp => (clean_text hsp).bind fun _ _ => clean_pure _

theorem clean_entryAt (e : Int) (width rva : Nat) : Clean (entryAt f o e width rva) := by
  refine clean_at hc fun sp hsp => clean_refuse.bind fun _ hw => clean_rd ?_
  rw [refuse_eq_ok] at hw
  omega

/-! ### Exports -/

omit hc in
theorem clean_matchName (h : p + n ≤ f.size) (name : List UInt8) (same : Bool) :
    Clean (matchName f p n name same) := by
  induction n generalizing p name same with
  | zero => exact clean_code _
  | succ n ih =>
    rw [matchName]
    refine (clean_rd8 (by omega)).bind fun ch _ => ite (fun _ => clean_pure _) fun _ => ?_
    exact clean_refuse.bind fun _ _ => ih (by omega) _ _

theorem clean_matchExportName (rva : Nat) (name : List UInt8) : Clean (matchExportName f o rva name) :=
  clean_at hc fun _ hsp => clean_matchName hsp name true

theorem clean_readExports : Clean (readExports f o) := by
  refine clean_at hc fun sp hsp => clean_refuse.bind fun _ hw => ?_
  rw [refuse_eq_ok] at hw
  iterate 6 refine (clean_rd (by omega)).bind fun _ _ => ?_
  exact clean_refuse.bind fun _ _ => clean_pure _

theorem clean_findName (x : Exports) (name : List UInt8) (n i : Nat) : Clean (findName f o x name n i) := by
  induction n generalizing i with
  | zero => exact clean_code _
  | succ n ih =>
    refine (clean_entryAt hc _ _ _).bind fun rva _ => ?_
    refine ((clean_matchExportName hc rva name).recode _).bind fun same _ => ite (fun _ => ?_) fun _ => ih (i + 1)
    exact (clean_entryAt hc _ _ _).bind fun _ _ => clean_refuse.bind fun _ _ => clean_pure _

theorem clean_exportIndex (x : Exports) (w : Wanted) : Clean (exportIndex f o x w) := by
  rcases w with s | n
  · exact clean_findName hc x s _ _
  · exact clean_refuse.bind fun _ _ => clean_pure _

theorem clean_findExport (w : Wanted) (cap : Option Nat) : Clean (findExport f o w cap) := by
  refine clean_refuse.bind fun _ _ => (clean_readExports hc).bind fun x _ => ?_
  refine (clean_exportIndex hc x w).bind fun i _ => ?_
  refine (clean_entryAt hc _ _ _).bind fun target _ => clean_refuse.bind fun _ _ => ite (fun _ => ?_) fun _ => ?_
  · rcases cap with _ | cap
    · exact clean_code _
    · exact ((clean_readString hc _ _).recode _).bind fun _ _ => clean_pure _
  · exact clean_refuse.bind fun _ _ => clean_pure _

/-! ### Imports -/

theorem clean_hintName (e : Int) (dll : List UInt8) (slot rva : Nat) : Clean (hintName f o e dll slot rva) := by
  refine clean_at hc fun sp hsp => clean_refuse.bind fun _ hw => ?_
  rw [refuse_eq_ok] at hw
  refine ((clean_symbolView hc _).recode e).bind fun _ _ => ?_
  exact (clean_rd (by omega)).bind fun _ _ => clean_pure _

omit hc in
theorem hintName_slot {slot : Nat} (h : hintName f o e dll slot rva = .ok x) : x.slot = slot := by
  simp only [hintName, bind_eq_ok] at h
  obtain ⟨_, -, _, -, _, -, _, -, h⟩ := h
  cases h
  rfl

theorem clean_importThunk (dll : List UInt8) (ilt iat idx : Nat) : Clean (importThunk f o dll ilt iat idx) := by
  refine (clean_entryAt hc _ _ _).bind fun thunk _ => ite (fun _ => clean_pure _) fun _ => ?_
  refine clean_refuse.bind fun _ _ => ite (fun _ => clean_pure _) fun _ => clean_refuse.bind fun _ _ => ?_
  exact (clean_hintName hc _ _ _ _).bind fun _ _ => clean_pure _

omit hc in
theorem importThunk_slot {ilt iat idx : Nat} (h : importThunk f o dll ilt iat idx = .ok (some x)) :
    x.slot + 8 ≤ o.sizeOfImage := by
  simp only [importThunk, bind_eq_ok] at h
  obtain ⟨thunk, -, h⟩ := h
  split at h
  · cases h
  simp only [bind_eq_ok, refuse_eq_ok, not_not] at h
  obtain ⟨_, hslot, h⟩ := h
  split at h
  · cases h
    exact hslot.le
  simp only [bind_eq_ok] at h
  obtain ⟨_, -, y, hy, h⟩ := h
  cases h
  rw [hintName_slot hy]
  exact hslot.le

theorem clean_importDescriptor (rva : Nat) : Clean (importDescriptor f o rva) := by
  refine clean_at hc fun sp hsp => clean_refuse.bind fun _ hw => ?_
  rw [refuse_eq_ok] at hw
  iterate 3 refine (clean_rd (by omega)).bind fun _ _ => ?_
  refine ite (fun _ => clean_pure _) fun _ => clean_refuse.bind fun _ _ => ?_
  exact ((clean_readString hc _ _).recode _).bind fun _ _ => clean_pure _

variable {σ : Type} {P : σ → Prop}

theorem keeps_importThunks {fn : σ → Import → σ × Int}
    (hfn : ∀ s x, P s → x.slot + 8 ≤ o.sizeOfImage → P (fn s x).1) (dll : List UInt8) (ilt iat n idx : Nat) :
    Keeps P (importThunks f o fn dll ilt iat n idx) := by
  induction n generalizing idx with
  | zero => exact keeps_fail _
  | succ n ih =>
    refine Keeps.read (clean_importThunk hc _ _ _ _) fun x hx => ?_
    rcases x with _ | x
    · exact keeps_pure ()
    · exact (keeps_call fun s hs => hfn s x hs (importThunk_slot hx)).bind fun _ => ih (idx + 1)

theorem keeps_importDescriptors {fn : σ → Import → σ × Int}
    (hfn : ∀ s x, P s → x.slot + 8 ≤ o.sizeOfImage → P (fn s x).1) (n rva : Nat) :
    Keeps P (importDescriptors f o fn n rva) := by
  induction n generalizing rva with
  | zero => exact keeps_fail _
  | succ n ih =>
    refine Keeps.read (clean_importDescriptor hc _) fun d _ => ?_
    rcases d with _ | ⟨dll, ilt, iat⟩
    · exact keeps_pure ()
    · exact (keeps_importThunks hc hfn dll ilt iat _ 0).bind fun _ => ih _

theorem keeps_walkImports {fn : σ → Import → σ × Int}
    (hfn : ∀ s x, P s → x.slot + 8 ≤ o.sizeOfImage → P (fn s x).1) : Keeps P (walkImports f o fn) := by
  rw [walkImports]
  split
  · exact keeps_pure ()
  · exact keeps_importDescriptors hc hfn _ _

/-! ### Base relocations -/

omit hc in
theorem keeps_relocEntries {fn : σ → Fixup → σ × Int}
    (hfn : ∀ s x, P s → x.rva + relocWidth x.type ≤ o.sizeOfImage → P (fn s x).1) (n i : Nat)
    (hp : p + (i + n) * 2 ≤ f.size) : Keeps P (relocEntries f o fn p page n i) := by
  induction n using Nat.strongRecOn generalizing i with
  | ind n ih =>
    rcases n with _ | n
    · exact keeps_pure ()
    rw [relocEntries]
    refine Keeps.read (clean_rd (by omega)) fun e _ => ?_
    simp only
    split
    · exact ih n (by omega) (i + 1) (by omega)
    refine Keeps.read clean_refuse fun _ hin => ?_
    rw [refuse_eq_ok, not_or, not_not] at hin
    have hcall : ∀ low s, P s → P (fn s ⟨u32 (page + e % 4096), e / 4096, low⟩).1 :=
      fun low s hs => hfn s _ hs hin.2.le
    split
    · rcases n with _ | n
      · exact keeps_fail _
      · refine Keeps.read (clean_rd (by omega)) fun low _ => ?_
        exact (keeps_call (hcall low)).bind fun _ => ih n (by omega) (i + 2) (by omega)
    · exact (keeps_call (hcall 0)).bind fun _ => ih n (by omega) (i + 1) (by omega)

theorem clean_relocBlock (rva remaining : Nat) : Clean (relocBlock f o rva remaining) := by
  refine clean_at hc fun sp hsp => clean_refuse.bind fun _ hw => ?_
  rw [refuse_eq_ok] at hw
  iterate 2 refine (clean_rd (by omega)).bind fun _ _ => ?_
  exact clean_refuse.bind fun _ _ => clean_refuse.bind fun _ _ => clean_pure _

theorem relocBlock_inside {remaining block : Nat}
    (h : relocBlock f o rva remaining = .ok (p, page, block)) :
    8 ≤ block ∧ block ≤ remaining ∧ p + (block - 8) ≤ f.size := by
  simp only [relocBlock, bind_eq_ok, recode_eq_ok, refuse_eq_ok] at h
  obtain ⟨sp, hsp, _, _, _, -, _, -, _, hblock, _, havail, h⟩ := h
  cases h
  have := rvaToOffset_inside hc hsp
  omega

theorem keeps_relocBlocks {fn : σ → Fixup → σ × Int}
    (hfn : ∀ s x, P s → x.rva + relocWidth x.type ≤ o.sizeOfImage → P (fn s x).1) (rounds rva remaining : Nat)
    (hr : remaining ≤ rounds) : Keeps P (relocBlocks f o fn rounds rva remaining) := by
  induction rounds generalizing rva remaining with
  | zero =>
    rw [relocBlocks, if_pos (by omega)]
    exact fun s hs => ⟨hs, clean_refuse⟩
  | succ rounds ih =>
    rw [relocBlocks]
    split
    · exact fun s hs => ⟨hs, clean_refuse⟩
    refine Keeps.read (clean_relocBlock hc _ _) fun b hb => ?_
    obtain ⟨hmin, hfit, hfile⟩ := relocBlock_inside hc hb
    refine Keeps.bind (keeps_relocEntries hfn _ 0 (by omega)) fun _ => ih _ _ (by omega)

theorem keeps_walkRelocs {fn : σ → Fixup → σ × Int}
    (hfn : ∀ s x, P s → x.rva + relocWidth x.type ≤ o.sizeOfImage → P (fn s x).1) :
    Keeps P (walkRelocs f o fn) := by
  rw [walkRelocs]
  split
  · exact keeps_pure ()
  · exact keeps_relocBlocks hc hfn _ _ _ (Nat.le_refl _)

/-! ### Delay imports -/

omit hc in
theorem clean_legacyField (va : Nat) : Clean (legacyField o va) := by
  rw [legacyField]
  exact ite (fun _ => clean_pure _) fun _ => clean_refuse.bind fun _ _ => clean_pure _

omit hc in
theorem clean_delayFields (d : DelayDesc) : Clean (delayFields o d) := by
  rw [delayFields]
  refine ite (fun _ => clean_pure _) fun _ => ?_
  iterate 6 refine (clean_legacyField _).bind fun _ _ => ?_
  exact clean_pure _

theorem clean_delayDescriptor (rva : Nat) : Clean (delayDescriptor f o rva) := by
  refine clean_at hc fun sp hsp => clean_refuse.bind fun _ hw => ?_
  rw [refuse_eq_ok] at hw
  iterate 8 refine (clean_rd (by omega)).bind fun _ _ => ?_
  refine ite (fun _ => clean_pure _) fun _ => (clean_delayFields _).bind fun d _ => ?_
  refine clean_refuse.bind fun _ _ => clean_refuse.bind fun _ _ => ?_
  exact ((clean_readString hc _ _).recode _).bind fun _ _ => clean_pure _

omit hc in
theorem clean_delayHintRva (d : DelayDesc) (thunk : Nat) : Clean (delayHintRva o d thunk) := by
  rw [delayHintRva]
  exact ite (fun _ => clean_refuse.bind fun _ _ => clean_pure _)
    fun _ => clean_refuse.bind fun _ _ => clean_pure _

theorem clean_delayThunk (d : DelayDesc) (idx : Nat) : Clean (delayThunk f o d idx) := by
  refine (clean_entryAt hc _ _ _).bind fun thunk _ => ite (fun _ => clean_pure _) fun _ => ?_
  refine clean_refuse.bind fun _ _ => ite (fun _ => clean_pure _) fun _ => ?_
  exact (clean_delayHintRva d thunk).bind fun _ _ => (clean_hintName hc _ _ _ _).bind fun _ _ => clean_pure _

theorem keeps_delayThunks {fn : σ → DelayDesc × Import → σ × Int} (hfn : ∀ s x, P s → P (fn s x).1)
    (d : DelayDesc) (n idx : Nat) : Keeps P (delayThunks f o fn d n idx) := by
  induction n generalizing idx with
  | zero => exact keeps_fail _
  | succ n ih =>
    refine Keeps.read (clean_delayThunk hc d idx) fun x _ => ?_
    rcases x with _ | x
    · exact keeps_pure ()
    · exact (keeps_call fun s hs => hfn s (d, x) hs).bind fun _ => ih (idx + 1)

theorem keeps_delayDescriptors {fn : σ → DelayDesc × Import → σ × Int} (hfn : ∀ s x, P s → P (fn s x).1)
    (n rva : Nat) : Keeps P (delayDescriptors f o fn n rva) := by
  induction n generalizing rva with
  | zero => exact keeps_fail _
  | succ n ih =>
    refine Keeps.read (clean_delayDescriptor hc rva) fun d _ => ?_
    rcases d with _ | d
    · exact keeps_pure ()
    · exact (keeps_delayThunks hc hfn d _ 0).bind fun _ => ih _

theorem keeps_walkDelayImports {fn : σ → DelayDesc × Import → σ × Int} (hfn : ∀ s x, P s → P (fn s x).1) :
    Keeps P (walkDelayImports f o fn) := by
  rw [walkDelayImports]
  split
  · exact keeps_pure ()
  · exact keeps_delayDescriptors hc hfn _ _

/-! ### The load configuration -/

omit hc in
theorem clean_configField (h : p + n ≤ f.size) (width i : Nat) :
    Clean (configField f p n width i) := by
  rw [configField]
  exact ite (fun _ => clean_rd (by omega)) fun _ => clean_pure _

omit hc in
theorem clean_readConfig {size : Nat} (h : p + size ≤ f.size) : Clean (readConfig f p size) := by
  rw [readConfig]
  iterate 24 refine (clean_configField h _ _).bind fun _ _ => ?_
  exact clean_pure _

theorem clean_loadConfig : Clean (loadConfig f o) := by
  refine ite (fun _ => clean_pure _) fun _ => clean_at hc fun sp hsp => clean_refuse.bind fun _ hw => ?_
  rw [refuse_eq_ok] at hw
  refine (clean_rd (by omega)).bind fun size _ => clean_refuse.bind fun _ hsize => ?_
  rw [refuse_eq_ok] at hsize
  refine (clean_readConfig (by omega)).bind fun c _ => clean_refuse.bind fun _ _ => ?_
  exact clean_refuse.bind fun _ _ => clean_pure _

end

end Win98Modern.Pe
