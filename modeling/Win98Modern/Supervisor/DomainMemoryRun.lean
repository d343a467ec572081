import Win98Modern.Supervisor.DomainMemorySteps
import Win98Modern.Lib.Runs

/-!
# Isolation of the domains

Two domains share the region of their own channel and nothing else, as long as the blocks that the
loader allocated for its files stay away from the framebuffer, and the ROM of Win98 from the memory of
the kernel domains: `shz_fb_grant_check` does not compare the framebuffer with these blocks.
-/

namespace Win98Modern.Supervisor.DomainMemory

variable {m : Machine} {s : State} {i j c g g' h p p' : Nat} {grant : FbGrant}

/-! ### The handoff -/

/-- The spans of the RAM, of the channels and of the Supervisor are pairwise disjoint. -/
def Apart (info : Info) : Prop :=
  ∀ o o', o ≠ o' → ∀ a < 2 ^ 64, Within a (ownSpan info o) → ¬Within a (ownSpan info o')

/-- The blocks of the loader's files. -/
def blobSpans (info : Info) : List (Nat × Nat) :=
  (info.blobs.take SHZ_MAX_BLOBS).map fun b => (b.base.toNat, b.size.toNat)

def memmapSpan (info : Info) : Nat × Nat := (info.memmapBase.toNat, info.memmapBytes.toNat)

/-- The blocks of the loader stay away from the framebuffer that it asks to grant, and the ROM of Win98
from the kernel domains and the channels. -/
structure Clear (info : Info) : Prop where
  display : loaderFlagPolicy info.loaderFlags = .display → ∀ a, info.fbBase.toNat ≤ a →
    a < info.fbBase.toNat + roundUp (visibleBytes info) →
      ∀ sp ∈ blobSpans info ++ [memmapSpan info], ¬Within a sp
  rom : info.loaderFlags &&& SHZ_LOADER_NATIVE_WIN98 ≠ 0 → ∀ rom, findBlob info "SEABIOS.BIN" = some rom →
    ∀ o < rom.size.toNat, ∀ owner, owner = .kernel32 ∨ owner = .kernel64 ∨ owner = .ipc →
      ¬Within (rom.base.toNat + o) (ownSpan info owner)

/-! ### What isolation is -/

/-- The address is in the region of a channel. -/
def InChannel (m : Machine) (c h : Nat) : Prop :=
  c < SHZ_MAX_CHANNELS ∧ ipcConfigured m = true ∧ Within h (channelHpa m c, SHZ_IPC_REGION_SIZE)

/-- The address is in the framebuffer that Kernel64 was granted. -/
def InGrant (m : Machine) (s : State) (h : Nat) : Prop :=
  (s.dom SHZ_DOM_KERNEL64).state ≠ .unused ∧
    ∃ grant, Grants m grant ∧ grant.base ≤ h ∧ h < grant.base + grant.mapBytes

/-- All memory that the loader handed to anyone. -/
def memorySpans (info : Info) : List (Nat × Nat) := hostSpans info ++ (blobSpans info ++ [memmapSpan info])

structure Isolated (m : Machine) (s : State) : Prop where
  shared : ∀ i j, i ≠ j → (s.dom i).state ≠ .unused → (s.dom j).state ≠ .unused →
    ∀ g < 2 ^ 48, ∀ g' < 2 ^ 48, ∀ h p p', translate (s.dom i).ept g = some (h, p) →
      translate (s.dom j).ept g' = some (h, p') →
        ∃ c, InChannel m c h ∧ (channelPlan c = (i, j) ∨ channelPlan c = (j, i))
  noExec : ∀ i, (s.dom i).state ≠ .unused → ∀ g < 2 ^ 48, ∀ h p, translate (s.dom i).ept g = some (h, p) →
    (∃ c, InChannel m c h) ∨ InGrant m s h → p &&& EPT_X = 0
  display : ∀ h, InGrant m s h → m.info.fbBase.toNat ≤ h ∧
    h < (m.info.fbBase.toNat + m.info.fbSize.toNat + 0xfff) / 0x1000 * 0x1000 ∧
      ∀ sp ∈ memorySpans m.info, ¬Within h sp
  pointer : ∀ i, (s.dom i).state ≠ .unused → ∀ gpa len ptr, domGpaPtr (s.dom i) gpa len = some ptr →
    (gpa + len ≤ (s.dom i).ramSize ∨ ∃ c < SHZ_MAX_CHANNELS, ((s.dom i).chan c).mapped = true ∧
      channelGpa c ≤ gpa ∧ gpa + len ≤ channelGpa c + SHZ_IPC_REGION_SIZE) ∧
        ∀ o < len, ∃ p, translate (s.dom i).ept (gpa + o) = some (ptr + o, p)

/-! ### Areas -/

section Areas

theorem ownSpan_lt (info : Info) (o : Owner) : (ownSpan info o).1 < 2 ^ 64 ∧ (ownSpan info o).2 < 2 ^ 64 := by
  have hlt (x : U64) : x.toNat < 2 ^ 64 := x.isLt
  cases o with
  | supervisor =>
    show SHZ_REGION_BASE < 2 ^ 64 ∧ SHZ_REGION_SIZE < 2 ^ 64
    decide
  | guest | kernel32 | kernel64 | ipc => exact ⟨hlt _, hlt _⟩

theorem ownSpan_mem (info : Info) (o : Owner) : ownSpan info o ∈ hostSpans info := by
  cases o <;> simp [ownSpan, hostSpans]

theorem own_display {o : Owner} (hg : Grants m grant) (hlo : grant.base ≤ h)
    (hhi : h < grant.base + grant.mapBytes) : ¬Within h (ownSpan m.info o) :=
  (fbGrantCheck_spec hg.2).not_within (ownSpan_mem m.info o) (ownSpan_lt m.info o).1 (ownSpan_lt m.info o).2 hlo hhi

theorem native_display (hn : Native m) (hg : Grants m grant) : False := hn (fbGrantCheck_spec hg.2).foreign

theorem within_ram (hg : g < (ram m i).2) (htop : (ram m i).1 + (ram m i).2 ≤ MAX_GIB * 2 ^ 30) :
    Within ((ram m i).1 + g) (ownSpan m.info (ramOwner i)) := by
  unfold MAX_GIB at htop
  exact within_of_le (Nat.le_add_right _ _) (Nat.add_lt_add_left hg _) (by omega)

theorem ipc_of_inChannel (hc : InChannel m c h) : Within h (ownSpan m.info .ipc) := by
  obtain ⟨hlt, hconf, hin⟩ := hc
  have hsize : SHZ_MAX_CHANNELS * SHZ_IPC_REGION_SIZE ≤ m.info.ipcSize.toNat := (of_decide_eq_true hconf).2
  unfold Within channelHpa SHZ_IPC_REGION_SIZE at hin
  unfold SHZ_IPC_REGION_SIZE at hsize
  unfold Within ownSpan
  dsimp only at hin ⊢
  omega

theorem inChannel_of_reach {o : Nat} (hc : c < SHZ_MAX_CHANNELS) (ho : o < SHZ_IPC_REGION_SIZE)
    (hconf : ipcConfigured m = true) (htop : channelHpa m c ≤ MAX_GIB * 2 ^ 30) :
    InChannel m c (channelHpa m c + o) ∧ channelHpa m c + o < 2 ^ 64 := by
  unfold MAX_GIB at htop
  have hlt : channelHpa m c + o < 2 ^ 64 := by
    unfold SHZ_IPC_REGION_SIZE at ho
    omega
  exact ⟨⟨hc, hconf, within_of_le (Nat.le_add_right _ _) (Nat.add_lt_add_left ho _) hlt⟩, hlt⟩

theorem within_supervisor (hlo : SHZ_REGION_BASE ≤ h) (hhi : h < SHZ_REGION_BASE + SHZ_REGION_SIZE) :
    h < 2 ^ 64 ∧ Within h (ownSpan m.info .supervisor) := by
  have htop : h < 2 ^ 64 := Nat.lt_trans hhi (by decide)
  exact ⟨htop, within_of_le hlo hhi htop⟩

theorem inChannel_unique {c' : Nat} (hc : InChannel m c h) (hc' : InChannel m c' h) : c = c' := by
  obtain ⟨hlt, _, hin⟩ := hc
  obtain ⟨hlt', _, hin'⟩ := hc'
  unfold Within channelHpa SHZ_IPC_REGION_SIZE at hin hin'
  unfold SHZ_MAX_CHANNELS at hlt hlt'
  omega

theorem channelPlan_pair (hi : planned c i) (hj : planned c j) (hij : i ≠ j) :
    channelPlan c = (i, j) ∨ channelPlan c = (j, i) := by
  rcases hi with hi | hi <;> rcases hj with hj | hj
  · exact absurd (hi.symm.trans hj) hij
  · exact .inl (Prod.ext hi hj)
  · exact .inr (Prod.ext hj hi)
  · exact absurd (hi.symm.trans hj) hij

theorem ramOwner_ne (i : Nat) : ramOwner i ≠ .ipc ∧ ramOwner i ≠ .supervisor := by
  unfold ramOwner
  split
  · exact ⟨nofun, nofun⟩
  · split <;> exact ⟨nofun, nofun⟩

end Areas
/-! ### Two domains -/

section Shared

theorem ramOwner_apart {di dj : Domain} (hi : DomOk m di i) (hj : DomOk m dj j) (hij : i ≠ j) :
    ramOwner i ≠ ramOwner j := by
  rcases hi.known with ⟨rfl, hn⟩ | rfl | rfl | ⟨rfl, hn⟩ <;>
    rcases hj.known with ⟨rfl, hn'⟩ | rfl | rfl | ⟨rfl, hn'⟩
  case inl.inr.inr.inr => exact absurd hn' hn
  case inr.inr.inr.inl => exact absurd hn hn'
  all_goals first | exact absurd rfl hij | decide

theorem ramOwner_kernel {d : Domain} (hi : DomOk m d i) (hn : Native m) (hne : i ≠ SHZ_DOM_WIN98) :
    ramOwner i = .kernel32 ∨ ramOwner i = .kernel64 ∨ ramOwner i = .ipc := by
  rcases hi.known with ⟨_, hdos⟩ | rfl | rfl | ⟨rfl, _⟩
  · exact absurd hn hdos
  · exact .inl rfl
  · exact .inr (.inl rfl)
  · exact absurd rfl hne

theorem reach_shared (ha : Apart m.info) (hc : Clear m.info) {di dj : Domain} (hi : DomOk m di i)
    (hj : DomOk m dj j) (hij : i ≠ j) (h₁ : Reach m i g h p) (h₂ : Reach m j g' h p') (hh : h < 2 ^ 64) :
    ∃ c, InChannel m c h ∧ (channelPlan c = (i, j) ∨ channelPlan c = (j, i)) := by
  generalize hk : h = k at h₂
  have hram := ramOwner_apart hi hj hij
  cases h₁ with
  | ram hg htop =>
    have hin := within_ram hg htop
    rw [hk] at hin hh
    cases h₂ with
    | ram hg' htop' => exact absurd (within_ram hg' htop') (ha _ _ hram _ hh hin)
    | channel hcl hp ho hconf htop' =>
      exact absurd (ipc_of_inChannel (inChannel_of_reach hcl ho hconf htop').1) (ha _ _ (ramOwner_ne i).1 _ hh hin)
    | display hgr hlo hhi => exact absurd hin (own_display hgr hlo hhi)
    | rom hn hr ho => exact absurd hin (hc.rom hn _ hr _ ho _ (ramOwner_kernel hi hn hij))
    | lapic hn hlo hhi => exact absurd (within_supervisor hlo hhi).2 (ha _ _ (ramOwner_ne i).2 _ hh hin)
  | channel hcl hp ho hconf htop =>
    obtain ⟨hin, _⟩ := inChannel_of_reach hcl ho hconf htop
    rw [hk] at hin hh
    have hipc := ipc_of_inChannel hin
    cases h₂ with
    | ram hg' htop' => exact absurd (within_ram hg' htop') (ha _ _ (ramOwner_ne j).1.symm _ hh hipc)
    | channel hcl' hp' ho' hconf' htop' =>
      obtain rfl := inChannel_unique hin (inChannel_of_reach hcl' ho' hconf' htop').1
      exact ⟨_, hk ▸ hin, channelPlan_pair hp hp' hij⟩
    | display hgr hlo hhi => exact absurd hipc (own_display hgr hlo hhi)
    | rom hn hr ho' => exact absurd hipc (hc.rom hn _ hr _ ho' _ (.inr (.inr rfl)))
    | lapic hn hlo hhi => exact absurd (within_supervisor hlo hhi).2 (ha _ _ (by decide) _ hh hipc)
  | display hgr hlo hhi =>
    subst hk
    cases h₂ with
    | ram hg' htop' => exact absurd (within_ram hg' htop') (own_display hgr hlo hhi)
    | channel hcl hp ho hconf htop' =>
      exact absurd (ipc_of_inChannel (inChannel_of_reach hcl ho hconf htop').1) (own_display hgr hlo hhi)
    | display => exact absurd rfl hij
    | rom hn => exact (native_display hn hgr).elim
    | lapic hn => exact (native_display hn hgr).elim
  | rom hn hr ho =>
    have hrom := hc.rom hn _ hr _ ho
    rw [hk] at hrom
    cases h₂ with
    | ram hg' htop' => exact absurd (within_ram hg' htop') (hrom _ (ramOwner_kernel hj hn hij.symm))
    | channel hcl hp ho' hconf htop' =>
      exact absurd (ipc_of_inChannel (inChannel_of_reach hcl ho' hconf htop').1) (hrom _ (.inr (.inr rfl)))
    | display hgr => exact (native_display hn hgr).elim
    | rom => exact absurd rfl hij
    | lapic => exact absurd rfl hij
  | lapic hn hlo hhi =>
    obtain ⟨_, hin⟩ := within_supervisor (m := m) hlo hhi
    rw [hk] at hin hh
    cases h₂ with
    | ram hg' htop' => exact absurd (within_ram hg' htop') (ha _ _ (ramOwner_ne j).2.symm _ hh hin)
    | channel hcl hp ho hconf htop' =>
      exact absurd (ipc_of_inChannel (inChannel_of_reach hcl ho hconf htop').1) (ha _ _ (by decide) _ hh hin)
    | display hgr => exact (native_display hn hgr).elim
    | rom => exact absurd rfl hij
    | lapic => exact absurd rfl hij

end Shared
/-! ### Isolation -/

section Isolation

theorem translate_lt {e : Ept} (ht : translate e g = some (h, p)) : h < 2 ^ 64 := by
  unfold translate at ht
  split at ht
  · exact nomatch ht
  · injection ht with ht
    injection ht with hh _
    omega
  · obtain ⟨l, _, hl⟩ := Option.map_eq_some_iff.1 ht
    injection hl with hh _
    omega

theorem reach_noExec (ha : Apart m.info) (hc : Clear m.info) (hr : Reach m i g h p) (hh : h < 2 ^ 64)
    (hin : (∃ c, InChannel m c h) ∨ ∃ grant, Grants m grant ∧ grant.base ≤ h ∧ h < grant.base + grant.mapBytes) :
    p &&& EPT_X = 0 := by
  cases hr with
  | ram hg htop =>
    have hram := within_ram hg htop
    rcases hin with ⟨c, hcl⟩ | ⟨grant, hgr, hlo, hhi⟩
    · exact absurd (ipc_of_inChannel hcl) (ha _ _ (ramOwner_ne i).1 _ hh hram)
    · exact absurd hram (own_display hgr hlo hhi)
  | rom hn hrom ho =>
    rcases hin with ⟨c, hcl⟩ | ⟨grant, hgr, _⟩
    · exact absurd (ipc_of_inChannel hcl) (hc.rom hn _ hrom _ ho _ (.inr (.inr rfl)))
    · exact (native_display hn hgr).elim
  | channel => rfl
  | display => rfl
  | lapic => rfl

theorem grant_display (hc : Clear m.info) (hg : Grants m grant) (hlo : grant.base ≤ h)
    (hhi : h < grant.base + grant.mapBytes) : m.info.fbBase.toNat ≤ h ∧
      h < (m.info.fbBase.toNat + m.info.fbSize.toNat + 0xfff) / 0x1000 * 0x1000 ∧
        ∀ sp ∈ memorySpans m.info, ¬Within h sp := by
  have hspec := fbGrantCheck_spec hg.2
  have hbase := hspec.base
  have hbytes := hspec.mapBytes
  refine ⟨hbase ▸ hlo, ?_, fun sp hsp => ?_⟩
  · have hin := hspec.inside
    unfold roundUp at hin
    omega
  · rcases List.mem_append.1 hsp with hsp | hsp
    · exact hspec.not_within hsp (hostSpans_lt sp hsp).1 (hostSpans_lt sp hsp).2 hlo hhi
    · exact hc.display hg.1 h (hbase ▸ hlo) (by rw [← hbase, ← hbytes]; exact hhi) sp hsp

theorem domGpaPtr_spec {d : Domain} (hd : DomOk m d i) {gpa len ptr : Nat} (hp : domGpaPtr d gpa len = some ptr) :
    (gpa + len ≤ d.ramSize ∨ ∃ c < SHZ_MAX_CHANNELS, (d.chan c).mapped = true ∧ channelGpa c ≤ gpa ∧
      gpa + len ≤ channelGpa c + SHZ_IPC_REGION_SIZE) ∧
        ∀ o < len, ∃ p, translate d.ept (gpa + o) = some (ptr + o, p) := by
  have htop := hd.top
  unfold MAX_GIB at htop
  unfold domGpaPtr at hp
  split at hp
  case isTrue hram =>
    injection hp with hp
    refine ⟨.inl (by omega), fun o ho => ?_⟩
    obtain ⟨q, hq⟩ := hd.whole (gpa + o) (by omega)
    refine ⟨q, hq.trans ?_⟩
    rw [← hp, Nat.mod_eq_of_lt (by omega), Nat.add_assoc]
  case isFalse =>
    obtain ⟨c, hfind, hp⟩ := Option.map_eq_some_iff.1 hp
    have hc : c < SHZ_MAX_CHANNELS := List.mem_range.1 (List.mem_of_find?_eq_some hfind)
    have hfound := List.find?_some hfind
    obtain ⟨hm, hlo, hoff, hlen⟩ := of_decide_eq_true hfound
    obtain ⟨hhpa, htop', hall⟩ := hd.chan c hc hm
    unfold MAX_GIB at htop'
    have hsize : SHZ_IPC_REGION_SIZE = 0x100000 := rfl
    refine ⟨.inr ⟨c, hc, hm, hlo, by omega⟩, fun o ho => ?_⟩
    obtain ⟨q, hq⟩ := hall (gpa - channelGpa c + o) (by omega)
    refine ⟨q, ?_⟩
    rw [show channelGpa c + (gpa - channelGpa c + o) = gpa + o by omega] at hq
    rw [hq, ← hp, hhpa, Nat.mod_eq_of_lt (by omega), Nat.add_assoc]

theorem isolated_of_inv (ha : Apart m.info) (hc : Clear m.info) (hi : Inv m s) : Isolated m s where
  shared i j hij hsi hsj g hg g' hg' h p p' h₁ h₂ :=
    reach_shared ha hc (hi i hsi) (hi j hsj) hij ((hi i hsi).reach g hg h p h₁)
      ((hi j hsj).reach g' hg' h p' h₂) (translate_lt h₁)
  noExec i hs g hg h p ht hin :=
    reach_noExec ha hc ((hi i hs).reach g hg h p ht) (translate_lt ht) (hin.imp_right fun h => h.2)
  display h hin := by
    obtain ⟨_, grant, hg, hlo, hhi⟩ := hin
    exact grant_display hc hg hlo hhi
  pointer i hs gpa len ptr hp := domGpaPtr_spec (hi i hs) hp

theorem start_inv (hs : Start s) : Inv m s := fun id h => absurd (hs.dom id) h

/-- **Domain isolation.**  In every order of the calls, if the loader's blocks are clear of the
framebuffer and of the other domains. -/
theorem domain_isolation (ha : Apart m.info) (hc : Clear m.info) (start : Start s) (es : List Event) :
    Along (step m) (Isolated m) (fun _ _ => True) s es :=
  along_of_inv (I := Inv m) (A := fun _ => True) (G := fun _ _ => True) es (fun _ h => isolated_of_inv ha hc h)
    (fun _ a h _ _ => ⟨trivial, step_inv h a⟩) (start_inv start) (along_true s es)

end Isolation

/-! ### Runs -/

section Sample

/-- A DOS guest and both kernels; the loader asks to grant one page of framebuffer to Kernel64, whose
file is at `kernel`. -/
def sampleInfo (kernel : U64) : Info where
  fbBase := 0x80000000
  fbSize := 0x1000
  fbWidth := 1
  fbHeight := 1
  fbPitchPixels := 1
  fbFormat := 1
  tscHz := 1000000
  guestRamBase := 0x10000000
  guestRamSize := 0x200000
  diskBase := 0
  diskSize := 0
  memmapBase := 0
  memmapBytes := 0
  regionBase := 0x04000000
  regionSize := 0x01000000
  loaderFlags := SHZ_LOADER_K64_DISPLAY
  k32RamBase := 0x20000000
  k32RamSize := 0x1000000
  k64RamBase := 0x30000000
  k64RamSize := 0x1000000
  ipcBase := 0x40000000
  ipcSize := 0x400000
  blobs := [⟨"KERNEL64.BIN", kernel, 0x1000⟩, ⟨"KERNEL32.BIN", 0x90000000, 0x1000⟩]

def sampleMachine (kernel : U64) : Machine := ⟨sampleInfo kernel, 0x4100000, by decide⟩

def sample : State := ⟨fun _ => zeroDomain, 0⟩

theorem sample_start : Start sample := ⟨fun _ => rfl⟩

def sampleSpan : Owner → Nat × Nat
  | .guest => (0x10000000, 0x200000)
  | .kernel32 => (0x20000000, 0x1000000)
  | .kernel64 => (0x30000000, 0x1000000)
  | .ipc => (0x40000000, 0x400000)
  | .supervisor => (0x04000000, 0x01000000)

theorem sample_ownSpan (kernel : U64) (o : Owner) : ownSpan (sampleInfo kernel) o = sampleSpan o := by
  cases o <;> rfl

theorem within_iff {a b n : Nat} (ha : a < 2 ^ 64) (hb : b + n < 2 ^ 64) :
    Within a (b, n) ↔ b ≤ a ∧ a < b + n := by
  unfold Within
  omega

theorem sample_apart (kernel : U64) : Apart (sampleInfo kernel) := by
  intro o o' hne a ha h h'
  rw [sample_ownSpan] at h h'
  cases o <;> cases o' <;> first
    | exact hne rfl
    | dsimp only [sampleSpan] at h h'
      rw [within_iff ha (by decide)] at h h'
      omega

theorem sample_clear : Clear (sampleInfo 0xa0000000) := by
  refine ⟨fun _ a hlo hhi sp hsp hin => ?_, fun h => absurd (by decide) h⟩
  simp [blobSpans, memmapSpan, sampleInfo, SHZ_MAX_BLOBS] at hsp
  simp [sampleInfo, roundUp, visibleBytes] at hlo hhi
  rcases hsp with rfl | rfl | rfl <;> simp [Within] at hin <;> omega

def sampleRun : List Event := [.guest true, .kernel false true, .kernel true true, .channels]

theorem domain_isolation_sample :
    Along (step (sampleMachine 0xa0000000)) (Isolated (sampleMachine 0xa0000000)) (fun _ _ => True) sample
      sampleRun :=
  domain_isolation (sample_apart _) sample_clear sample_start sampleRun

/-- The framebuffer that Kernel64 is granted is where the loader put its file. -/
theorem grant_aliases_blob : Apart (sampleMachine 0x80000000).info ∧ Start sample ∧
    ¬Along (step (sampleMachine 0x80000000)) (Isolated (sampleMachine 0x80000000)) (fun _ _ => True) sample
      [.kernel true true] := by
  refine ⟨sample_apart _, sample_start, fun hrun => ?_⟩
  have hiso : Isolated _ (step (sampleMachine 0x80000000) sample (.kernel true true)) := hrun.2.2
  have hrunning : ((step (sampleMachine 0x80000000) sample (.kernel true true)).dom SHZ_DOM_KERNEL64).state ≠
      .unused := by
    decide +kernel
  obtain ⟨grant, hg, hb, hm⟩ : ∃ grant, Grants (sampleMachine 0x80000000) grant ∧ grant.base = 0x80000000 ∧
      grant.mapBytes = 0x1000 := by
    exact ⟨⟨0x80000000, 4, 0x1000, 1, 1, 4, 2⟩, ⟨by decide, by decide +kernel⟩, rfl, rfl⟩
  have hin : InGrant (sampleMachine 0x80000000) (step (sampleMachine 0x80000000) sample (.kernel true true))
      0x80000000 :=
    ⟨hrunning, grant, hg, by omega, by omega⟩
  refine (hiso.display _ hin).2.2 (0x80000000, 0x1000) ?_ ?_
  · decide
  · show (0x80000000 + (2 ^ 64 - 0x80000000)) % 2 ^ 64 < 0x1000
    decide

end Sample

end Win98Modern.Supervisor.DomainMemory
