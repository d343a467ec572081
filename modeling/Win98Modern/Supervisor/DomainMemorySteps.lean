import Win98Modern.Supervisor.DomainMemory

/-!
# What the tables of a domain reach

`Reach` says where a domain's memory may be; each call keeps every domain that runs within it
(`DomOk`).
-/

namespace Win98Modern.Supervisor.DomainMemory

open Function

variable {m : Machine} {s t : State} {d : Domain} {id c o g h p : Nat}

/-! ### Spans -/

def Within (a : Nat) (span : Nat × Nat) : Prop := (a + (2 ^ 64 - span.1)) % 2 ^ 64 < span.2

inductive Owner
  | guest | kernel32 | kernel64 | ipc | supervisor
  deriving DecidableEq, Repr

def ownSpan (info : Info) : Owner → Nat × Nat
  | .guest => (info.guestRamBase.toNat, info.guestRamSize.toNat)
  | .kernel32 => (info.k32RamBase.toNat, info.k32RamSize.toNat)
  | .kernel64 => (info.k64RamBase.toNat, info.k64RamSize.toNat)
  | .ipc => (info.ipcBase.toNat, info.ipcSize.toNat)
  | .supervisor => (SHZ_REGION_BASE, SHZ_REGION_SIZE)

def ramOwner (id : Nat) : Owner :=
  if id = SHZ_DOM_KERNEL32 then .kernel32 else if id = SHZ_DOM_KERNEL64 then .kernel64 else .guest

def ram (m : Machine) (id : Nat) : Nat × Nat := ownSpan m.info (ramOwner id)

theorem within_of_le {a base size : Nat} (hlo : base ≤ a) (hhi : a < base + size) (htop : a < 2 ^ 64) :
    Within a (base, size) := by
  unfold Within
  omega

/-! ### Reach -/

def Native (m : Machine) : Prop := m.info.loaderFlags &&& SHZ_LOADER_NATIVE_WIN98 ≠ 0

def planned (c id : Nat) : Prop := (channelPlan c).1 = id ∨ (channelPlan c).2 = id

/-- The framebuffer was granted to Kernel64. -/
def Grants (m : Machine) (grant : FbGrant) : Prop :=
  loaderFlagPolicy m.info.loaderFlags = .display ∧
    fbGrantCheck m.info m.info.k64RamSize.toNat = .ok grant

/-- The addresses that the tables of a domain may hold, where they lead, and how. -/
inductive Reach (m : Machine) : Nat → Nat → Nat → Nat → Prop
  | ram {id g : Nat} (hg : g < (ram m id).2) (htop : (ram m id).1 + (ram m id).2 ≤ MAX_GIB * 2 ^ 30) :
    Reach m id g ((ram m id).1 + g) (EPT_RWX + EPT_WB)
  | channel {id c o : Nat} (hc : c < SHZ_MAX_CHANNELS) (hp : planned c id) (ho : o < SHZ_IPC_REGION_SIZE)
    (hconf : ipcConfigured m = true) (htop : channelHpa m c ≤ MAX_GIB * 2 ^ 30) :
    Reach m id (channelGpa c + o) (channelHpa m c + o) (EPT_R + EPT_W + EPT_WB)
  | display {g : Nat} {grant : FbGrant} (hg : Grants m grant) (hlo : grant.base ≤ g)
    (hhi : g < grant.base + grant.mapBytes) : Reach m SHZ_DOM_KERNEL64 g g (EPT_R + EPT_W + EPT_WC)
  | rom {o : Nat} {rom : Blob} (hn : Native m) (hr : findBlob m.info "SEABIOS.BIN" = some rom) (ho : o < rom.size.toNat) :
    Reach m SHZ_DOM_WIN98 (0x100000000 - rom.size.toNat + o) (rom.base.toNat + o) (EPT_R + EPT_X + EPT_WB)
  | lapic {g h : Nat} (hn : Native m) (hh : SHZ_REGION_BASE ≤ h) (hh' : h < SHZ_REGION_BASE + SHZ_REGION_SIZE) :
    Reach m SHZ_DOM_WIN98 g h (EPT_R + EPT_UC)

structure DomOk (m : Machine) (d : Domain) (id : Nat) : Prop where
  named : d.id = id
  known : id = SHZ_DOM_DOS16 ∧ ¬Native m ∨ id = SHZ_DOM_KERNEL32 ∨ id = SHZ_DOM_KERNEL64 ∨
    id = SHZ_DOM_WIN98 ∧ Native m
  place : (d.ramBase, d.ramSize) = ram m id
  top : d.ramBase + d.ramSize ≤ MAX_GIB * 2 ^ 30
  reach : ∀ g < 2 ^ 48, ∀ h p, translate d.ept g = some (h, p) → Reach m id g h p
  whole : ∀ g < d.ramSize, ∃ p, translate d.ept g = some (d.ramBase + g, p)
  chan : ∀ c < SHZ_MAX_CHANNELS, (d.chan c).mapped = true → (d.chan c).hpa = channelHpa m c ∧
    channelHpa m c ≤ MAX_GIB * 2 ^ 30 ∧
      ∀ o < SHZ_IPC_REGION_SIZE, ∃ p, translate d.ept (channelGpa c + o) = some (channelHpa m c + o, p)

def Inv (m : Machine) (s : State) : Prop := ∀ id, (s.dom id).state ≠ .unused → DomOk m (s.dom id) id

section Updates

theorem setDom_same : (s.setDom id d).dom id = d := update_self ..

theorem setDom_of_ne {id' : Nat} (h : id' ≠ id) : (s.setDom id d).dom id' = s.dom id' :=
  update_of_ne h ..

/-- A slot gets a domain that maps its own memory only. -/
theorem Inv.setDom (hi : Inv m s) (ht : t.dom = s.dom) (hd : d.state ≠ .unused → DomOk m d id) :
    Inv m (t.setDom id d) := by
  intro i hs
  by_cases h : i = id
  · subst h
    rw [setDom_same] at hs ⊢
    exact hd hs
  · rw [setDom_of_ne h, ht] at hs ⊢
    exact hi i hs

theorem Inv.setUnused (hi : Inv m s) (ht : t.dom = s.dom) (hd : d.state = .unused) : Inv m (t.setDom id d) :=
  hi.setDom ht fun h => absurd hd h

end Updates

/-! ### Maps -/

section Maps

variable {e e₁ : Ept} {used gpa hpa size perms : Nat} {force4k : Bool}

/-- What can be reached after a mapping was there, or is of the new range. -/
theorem reach_eptMap (hlt : gpa + size ≤ 2 ^ 48) (htop : hpa + size ≤ 2 ^ 52)
    (hr : ∀ g < 2 ^ 48, ∀ h p, translate e g = some (h, p) → Reach m id g h p)
    (hnew : ∀ o < size, Reach m id (gpa + o) (hpa + o) perms) :
    ∀ g < 2 ^ 48, ∀ h p, translate (eptMap e used gpa hpa size perms force4k).1 g = some (h, p) →
      Reach m id g h p := by
  intro g hg h p ht
  rcases (eptMap_spec e used hpa perms force4k hlt).1 g hg with
    he | ⟨hlo, hhi, _, he⟩
  · exact hr g hg h p (he ▸ ht)
  · rw [he] at ht
    injection ht with ht
    injection ht with hh hp
    have ho := hnew (g - gpa) (by omega)
    rw [show gpa + (g - gpa) = g by omega] at ho
    rw [← hp, ← hh, Nat.mod_eq_of_lt (by omega)]
    exact ho

/-- A mapping leaves the pages outside its range. -/
theorem kept_eptMap (hlt : gpa + size ≤ 2 ^ 48) {x : Nat × Nat} (hg : g < 2 ^ 48)
    (h : translate e g = some x) : translate (eptMap e used gpa hpa size perms force4k).1 g = some x := by
  rcases (eptMap_spec e used hpa perms force4k hlt).1 g hg with
    he | ⟨_, _, hn, _⟩
  · rw [he, h]
  · exact nomatch hn.symm.trans h

theorem mapped_eptMap (gpa : Nat) (hlt : gpa + size ≤ 2 ^ 48) (htop : hpa + size ≤ 2 ^ 52)
    (hok : (eptMap e used gpa hpa size perms force4k).2.2 = true) (ho : o < size) :
    translate (eptMap e used gpa hpa size perms force4k).1 (gpa + o) = some (hpa + o, perms) := by
  have h := ((eptMap_spec e used hpa perms force4k hlt).2
    hok (gpa + o) (by omega) (by omega)).2
  rw [h, target, show gpa + o - gpa = o by omega, Nat.mod_eq_of_lt (by omega)]

end Maps
/-! ### The check of the framebuffer -/

section Grant

variable {info : Info} {grant : FbGrant} {ramSize base n : Nat} {spans : List (Nat × Nat)}

theorem of_ite_error {ε α : Type} {c : Prop} [Decidable c] {e : ε} {x : Except ε α} {y : α}
    (h : (if c then .error e else x) = .ok y) : ¬c ∧ x = .ok y := by
  by_cases hc : c
  · rw [if_pos hc] at h
    exact nomatch h
  · rw [if_neg hc] at h
    exact ⟨hc, h⟩

theorem not_wraps (h : ¬wraps base n = true) : base + n < 2 ^ 64 ∨ 2 ^ 64 ≤ n := by
  have hle : base ≤ UINT64_MAX - n := Nat.le_of_not_gt fun hgt => h (decide_eq_true hgt)
  unfold UINT64_MAX at hle
  omega

theorem spansRefused_none (h : spansRefused base n spans = none) : ∀ sp ∈ spans,
    ¬(sp.2 ≠ 0 ∧ wraps sp.1 sp.2 = true) ∧ ¬overlaps base n sp.1 sp.2 = true := by
  induction spans with
  | nil => exact nofun
  | cons sp spans ih =>
    unfold spansRefused at h
    split at h
    case isTrue => exact nomatch h
    case isFalse hw =>
      split at h
      case isTrue => exact nomatch h
      case isFalse ho => exact List.forall_mem_cons.2 ⟨⟨hw, ho⟩, ih h⟩

structure Granted (info : Info) (grant : FbGrant) : Prop where
  foreign : info.loaderFlags &&& SHZ_LOADER_NATIVE_WIN98 = 0
  base : grant.base = info.fbBase.toNat
  mapBytes : grant.mapBytes = roundUp (visibleBytes info)
  top : grant.base + grant.mapBytes ≤ SHZ_FB_GRANT_GPA_LIMIT
  inside : grant.base + grant.mapBytes ≤ roundUp (info.fbBase.toNat + info.fbSize.toNat)
  apart : ∀ sp ∈ hostSpans info, ¬(sp.2 ≠ 0 ∧ wraps sp.1 sp.2 = true) ∧
    ¬overlaps grant.base grant.mapBytes sp.1 sp.2 = true

/-- A grant that passes meets nothing of the host. -/
theorem fbGrantCheck_spec (h : fbGrantCheck info ramSize = .ok grant) : Granted info grant := by
  obtain ⟨hn, h⟩ := of_ite_error h
  obtain ⟨_, h⟩ := of_ite_error h
  obtain ⟨_, h⟩ := of_ite_error h
  obtain ⟨_, h⟩ := of_ite_error h
  obtain ⟨hpitch, h⟩ := of_ite_error h
  obtain ⟨_, h⟩ := of_ite_error h
  obtain ⟨_, h⟩ := of_ite_error h
  obtain ⟨hwrap, h⟩ := of_ite_error h
  obtain ⟨hin, h⟩ := of_ite_error h
  obtain ⟨htop, h⟩ := of_ite_error h
  obtain ⟨_, h⟩ := of_ite_error h
  obtain ⟨_, h⟩ := of_ite_error h
  have hlt : roundUp (visibleBytes info) < 2 ^ 64 := by
    unfold roundUp
    omega
  have hsum : info.fbBase.toNat + roundUp (visibleBytes info) < 2 ^ 64 :=
    (not_wraps (not_or.1 hwrap).1).resolve_right (Nat.not_le_of_gt hlt)
  rw [Nat.mod_eq_of_lt hsum] at hin htop
  split at h
  case h_1 => exact nomatch h
  case h_2 hspans =>
    injection h with h
    subst h
    exact ⟨not_not.1 hn, rfl, rfl, Nat.le_of_not_gt htop, Nat.le_of_not_gt hin, spansRefused_none hspans⟩

theorem Granted.not_within (hg : Granted info grant) {sp : Nat × Nat} (hsp : sp ∈ hostSpans info)
    (hb : sp.1 < 2 ^ 64) (hn : sp.2 < 2 ^ 64) {a : Nat} (hlo : grant.base ≤ a)
    (hhi : a < grant.base + grant.mapBytes) : ¬Within a sp := by
  obtain ⟨hw, ho⟩ := hg.apart sp hsp
  have htop := hg.top
  unfold SHZ_FB_GRANT_GPA_LIMIT at htop
  intro hin
  unfold Within at hin
  by_cases hz : sp.2 = 0
  · rw [hz] at hin
    omega
  · have hsum := (not_wraps fun h => hw ⟨hz, h⟩).resolve_right (Nat.not_le_of_gt hn)
    refine ho (decide_eq_true ⟨?_, hz, ?_, ?_⟩)
    · omega
    · rw [Nat.mod_eq_of_lt hsum]
      omega
    · rw [Nat.mod_eq_of_lt (by omega)]
      omega

theorem hostSpans_lt : ∀ sp ∈ hostSpans info, sp.1 < 2 ^ 64 ∧ sp.2 < 2 ^ 64 := by
  have hlt (x : U64) : x.toNat < 2 ^ 64 := x.isLt
  intro sp hsp
  simp only [hostSpans, List.mem_cons, List.not_mem_nil, or_false] at hsp
  rcases hsp with rfl | rfl | rfl | rfl | rfl | rfl | rfl
  case inr.inr.inr.inr.inr.inr => decide
  all_goals exact ⟨hlt _, hlt _⟩

end Grant

/-! ### Creation -/

section Create

variable {used gpa hpa size perms base : Nat} {force4k vmx lm : Bool} {kind : DomKind}

/-- A domain with its RAM alone. -/
theorem DomOk.ofRam (kind : DomKind) (hk : id = SHZ_DOM_DOS16 ∧ ¬Native m ∨ id = SHZ_DOM_KERNEL32 ∨ id = SHZ_DOM_KERNEL64 ∨
      id = SHZ_DOM_WIN98 ∧ Native m) (hp : (base, size) = ram m id) (ht : base + size ≤ MAX_GIB * 2 ^ 30)
    (hok : (eptMap emptyEpt used 0 base size (EPT_RWX + EPT_WB) force4k).2.2 = true) :
    DomOk m { newDomain id kind base size with
      ept := (eptMap emptyEpt used 0 base size (EPT_RWX + EPT_WB) force4k).1 } id where
  named := rfl
  known := hk
  place := hp
  top := ht
  reach := by
    unfold MAX_GIB at ht
    refine reach_eptMap (by omega) (by omega) (fun g _ h p he => nomatch he) fun o ho => ?_
    have hr : Reach m id o _ _ := .ram (by rw [← hp]; exact ho) (by rw [← hp]; exact ht)
    rw [← hp] at hr
    rw [Nat.zero_add]
    exact hr
  whole g hg := by
    unfold MAX_GIB at ht
    have h := mapped_eptMap 0 (by omega) (by omega) hok hg
    rw [Nat.zero_add] at h
    exact ⟨_, h⟩
  chan c _ h := nomatch h

/-- A domain with one more range, of memory it may have. -/
theorem DomOk.extend (hd : DomOk m d id) (used gpa hpa size perms : Nat) (force4k : Bool) (hlt : gpa + size ≤ 2 ^ 48) (htop : hpa + size ≤ 2 ^ 52)
    (hnew : ∀ o < size, Reach m id (gpa + o) (hpa + o) perms) :
    DomOk m { d with ept := (eptMap d.ept used gpa hpa size perms force4k).1 } id where
  named := hd.named
  known := hd.known
  place := hd.place
  top := hd.top
  reach := reach_eptMap hlt htop hd.reach hnew
  whole g hg := by
    obtain ⟨p, hp⟩ := hd.whole g hg
    have hram := hd.top
    unfold MAX_GIB at hram
    exact ⟨p, kept_eptMap hlt (Nat.lt_of_lt_of_le (show g < 2 ^ 36 + 1 by
      have : g < d.ramSize := hg
      omega) (by decide)) hp⟩
  chan c hc hm := by
    obtain ⟨hh, ht, hall⟩ := hd.chan c hc hm
    refine ⟨hh, ht, fun o ho => ?_⟩
    obtain ⟨p, hp⟩ := hall o ho
    refine ⟨p, kept_eptMap hlt ?_ hp⟩
    unfold SHZ_MAX_CHANNELS at hc
    unfold channelGpa SHZ_IPC_GPA_BASE SHZ_IPC_REGION_SIZE at *
    omega

theorem finish_inv (hi : Inv m s) (hd : DomOk m d d.id) (hun : d.state = .unused) (vmx : Bool) :
    Inv m (finish s d vmx).1 := by
  dsimp only [finish]
  split
  · exact hi.setUnused rfl hun
  · split
    · exact hi.setUnused rfl hun
    · exact hi.setDom rfl fun _ => ⟨hd.named, hd.known, hd.place, hd.top, hd.reach, hd.whole, hd.chan⟩

end Create
/-! ### Every call -/

section Calls

variable {vmx lm : Bool} {c id peer : Nat}

theorem hostMapped_le {base size : Nat} (h : ¬hostMapped base size = false) :
    base + size ≤ MAX_GIB * 2 ^ 30 := of_decide_eq_true (Bool.not_eq_false _ ▸ h)

theorem dosDomainCreate_inv (hi : Inv m s) (hn : ¬Native m) (vmx : Bool) : Inv m (dosDomainCreate m s vmx).1 := by
  unfold dosDomainCreate
  dsimp only
  split
  case isTrue => exact hi.setUnused rfl rfl
  case isFalse =>
    split
    case isTrue => exact hi.setUnused rfl rfl
    case isFalse hmap =>
      split
      case h_1 => exact hi.setUnused rfl rfl
      case h_2 ept used hinit =>
        obtain ⟨_, hinit⟩ := Option.ite_none_right_eq_some.1 hinit
        injection hinit with hinit
        injection hinit with he hu
        subst he hu
        split
        case isTrue => exact hi.setUnused rfl rfl
        case isFalse hok =>
          exact finish_inv (by exact hi)
            (DomOk.ofRam _ (.inl ⟨rfl, hn⟩) rfl (hostMapped_le hmap) (Bool.not_eq_false _ ▸ hok)) rfl vmx

/-- The framebuffer is granted to the 64-bit kernel by policy only. -/
theorem displayGrant_ok (hd : DomOk m d SHZ_DOM_KERNEL64) (used : Nat)
    (hram : d.ramSize = m.info.k64RamSize.toNat) :
    DomOk m { d with ept := (displayGrant m true d.ramSize d.ept used).1 } SHZ_DOM_KERNEL64 := by
  unfold displayGrant
  split
  case isFalse => exact hd
  case isTrue hpol =>
    split
    case h_1 => exact hd
    case h_2 grant hg =>
      have hspec := fbGrantCheck_spec hg
      have htop := hspec.top
      unfold SHZ_FB_GRANT_GPA_LIMIT at htop
      exact hd.extend _ _ _ _ _ _ (by omega) (by omega) fun o ho =>
        .display ⟨hpol.2, hram ▸ hg⟩ (Nat.le_add_right _ _) (Nat.add_lt_add_left ho _)

theorem kernelDomainCreate_inv (hi : Inv m s) (lm vmx : Bool) : Inv m (kernelDomainCreate m s lm vmx).1 := by
  unfold kernelDomainCreate
  dsimp only
  have hun : (kernelDomain m lm).state = .unused := by
    cases lm <;> rfl
  split
  case isTrue => exact hi
  case isFalse =>
    split
    case h_1 => exact hi
    case h_2 kernel _ =>
      split
      case isTrue => exact hi
      case isFalse =>
        split
        case isTrue => exact hi.setUnused rfl hun
        case isFalse =>
          split
          case isTrue => exact hi.setUnused rfl hun
          case isFalse =>
            split
            case isTrue => exact hi.setUnused rfl hun
            case isFalse hmap =>
              have hmap := hostMapped_le (not_or.1 hmap).1
              split
              case h_1 => exact hi.setUnused rfl hun
              case h_2 ept used hinit =>
                obtain ⟨_, hinit⟩ := Option.ite_none_right_eq_some.1 hinit
                injection hinit with hinit
                injection hinit with he hu
                subst he hu
                split
                case isTrue => exact hi.setUnused rfl hun
                case isFalse hok =>
                  have hok := Bool.not_eq_false _ ▸ hok
                  split
                  case isTrue => exact hi.setUnused rfl hun
                  case isFalse =>
                    cases lm with
                    | false =>
                      have hd := DomOk.ofRam (m := m) .kernel32 (.inr (.inl rfl)) rfl hmap hok
                      exact finish_inv (by exact hi) hd rfl vmx
                    | true =>
                      have hd := DomOk.ofRam (m := m) .kernel64 (.inr (.inr (.inl rfl))) rfl hmap hok
                      exact finish_inv (by exact hi) (displayGrant_ok hd _ rfl) rfl vmx

/-- RAM, BIOS and local APIC page of the Windows 98 domain. -/
theorem win98Maps_ok {base size used : Nat} (lapic : Nat) {rom : Blob} (hn : Native m)
    (hrom : findBlob m.info "SEABIOS.BIN" = some rom) (hp : (base, size) = ram m SHZ_DOM_WIN98)
    (hram : base + size ≤ MAX_GIB * 2 ^ 30) (htop : rom.base.toNat + rom.size.toNat ≤ MAX_GIB * 2 ^ 30)
    (hl : SHZ_REGION_BASE ≤ lapic ∧ lapic + 0x1000 ≤ SHZ_REGION_BASE + SHZ_REGION_SIZE)
    (hok : (win98Maps base size rom lapic emptyEpt used).2.2 = true) :
    DomOk m { newDomain SHZ_DOM_WIN98 .win98 base size with
      ept := (win98Maps base size rom lapic emptyEpt used).1 } SHZ_DOM_WIN98 := by
  unfold MAX_GIB at htop
  unfold SHZ_REGION_BASE SHZ_REGION_SIZE at hl
  have h₁ := fun hok => DomOk.ofRam (m := m) .win98 (.inr (.inr (.inr ⟨rfl, hn⟩))) hp hram
    (show (eptMap emptyEpt used 0 base size (EPT_RWX + EPT_WB) true).2.2 = true from hok)
  unfold win98Maps at hok ⊢
  split at hok
  case h_1 => exact nomatch hok
  case h_2 e₁ u₁ hm₁ =>
    rw [hm₁] at h₁
    have h₂ := (h₁ rfl).extend u₁ (0x100000000 - rom.size.toNat) rom.base.toNat rom.size.toNat
      (EPT_R + EPT_X + EPT_WB) true (by omega)
      (by omega) fun o ho => .rom hn hrom ho
    split at hok
    case h_1 => exact nomatch hok
    case h_2 e₂ u₂ hm₂ =>
      rw [hm₂] at h₂
      exact h₂.extend u₂ _ _ _ _ true (by decide) (by omega) fun o ho =>
        .lapic hn (by unfold SHZ_REGION_BASE; omega) (by unfold SHZ_REGION_BASE SHZ_REGION_SIZE; omega)

theorem win98DomainCreate_inv (hi : Inv m s) (vmx : Bool) : Inv m (win98DomainCreate m s vmx).1 := by
  unfold win98DomainCreate
  dsimp only
  split
  case h_1 => exact hi
  case h_2 rom hrom =>
    split
    case isTrue => exact hi
    case isFalse hgeom =>
      have hnative := (not_or.1 hgeom).1
      split
      case isTrue => exact hi.setUnused rfl rfl
      case isFalse hmap =>
        split
        case isTrue => exact hi.setUnused rfl rfl
        case isFalse hpool =>
          have hplaced := m.placed
          split
          case h_1 => exact hi.setUnused rfl rfl
          case h_2 ept used hinit =>
            obtain ⟨_, hinit⟩ := Option.ite_none_right_eq_some.1 hinit
            injection hinit with hinit
            injection hinit with he hu
            subst he hu
            split
            case isTrue => exact hi.setUnused rfl rfl
            case isFalse hok =>
              have hd := win98Maps_ok (m.poolMem + s.used * 0x1000) hnative hrom rfl
                (hostMapped_le (not_or.1 hmap).1) (hostMapped_le (not_or.1 hmap).2)
                ⟨by omega, by omega⟩ (Bool.not_eq_false _ ▸ hok)
              exact finish_inv (by exact hi) hd rfl vmx

theorem channelGpa_le (hc : c < SHZ_MAX_CHANNELS) : channelGpa c + SHZ_IPC_REGION_SIZE ≤ 2 ^ 48 := by
  unfold SHZ_MAX_CHANNELS at hc
  unfold channelGpa SHZ_IPC_GPA_BASE SHZ_IPC_REGION_SIZE
  omega

theorem openPeer_inv (hi : Inv m s) {r : Ept × Nat × Bool} (htop : channelHpa m c ≤ MAX_GIB * 2 ^ 30)
    (hext : DomOk m (s.dom id) id → DomOk m { s.dom id with ept := r.1 } id)
    (hall : r.2.2 = true → ∀ o < SHZ_IPC_REGION_SIZE, ∃ p,
      translate r.1 (channelGpa c + o) = some (channelHpa m c + o, p)) (peer : Nat) :
    Inv m (openPeer m s c id peer r).1 := by
  dsimp only [openPeer]
  split
  case isFalse => exact hi.setDom rfl fun hs => hext (hi id hs)
  case isTrue hok =>
    refine hi.setDom rfl fun hs => ?_
    have hd := hext (hi id hs)
    refine ⟨hd.named, hd.known, hd.place, hd.top, hd.reach, hd.whole, fun l hl hm => ?_⟩
    dsimp only at hm ⊢
    by_cases hlc : l = c
    · subst hlc
      rw [update_self]
      exact ⟨rfl, htop, hall hok⟩
    · rw [update_of_ne hlc] at hm ⊢
      exact hd.chan l hl hm

theorem mapPeer_inv (hi : Inv m s) (hc : c < SHZ_MAX_CHANNELS) (hp : planned c id)
    (hconf : ipcConfigured m = true) (hinit : channelInit (channelHpa m c) = true) (peer : Nat) :
    Inv m (mapPeer m s c id peer).1 := by
  have htop : channelHpa m c ≤ MAX_GIB * 2 ^ 30 := by
    have h : channelHpa m c + 128 ≤ MAX_GIB * 2 ^ 30 := of_decide_eq_true (of_decide_eq_true hinit).2.2.2
    omega
  have hgpa := channelGpa_le hc
  have hhpa : channelHpa m c + SHZ_IPC_REGION_SIZE ≤ 2 ^ 52 := by
    unfold MAX_GIB at htop
    omega
  unfold mapPeer
  split
  case isTrue => exact hi
  case isFalse =>
    exact openPeer_inv hi htop (fun hd => hd.extend _ _ _ _ _ _ hgpa hhpa fun o ho => .channel hc hp ho hconf htop)
      (fun hok o ho => ⟨_, mapped_eptMap _ hgpa hhpa hok ho⟩) peer

theorem createChannel_inv (hi : Inv m s) (hc : c < SHZ_MAX_CHANNELS) (hconf : ipcConfigured m = true) :
    Inv m (createChannel m s c).1 := by
  unfold createChannel
  dsimp only
  split
  case isTrue => exact hi
  case isFalse =>
    split
    case isFalse => exact hi
    case isTrue hinit =>
      have h₁ := mapPeer_inv hi hc (.inl rfl) hconf hinit (channelPlan c).2
      split
      case isFalse => exact h₁
      case isTrue => exact mapPeer_inv h₁ hc (.inr rfl) hconf hinit _

theorem createChannels_inv (hconf : ipcConfigured m = true) (cs : List Nat) (hcs : ∀ c ∈ cs, c < SHZ_MAX_CHANNELS)
    (hi : Inv m s) : Inv m (createChannels m s cs).1 := by
  induction cs generalizing s with
  | nil => exact hi
  | cons c cs ih =>
    have h₁ := createChannel_inv hi (hcs c (.head _)) hconf
    dsimp only [createChannels]
    split
    case isFalse => exact h₁
    case isTrue => exact ih (fun c hc => hcs c (.tail _ hc)) h₁

theorem step_inv (hi : Inv m s) (a : Event) : Inv m (step m s a) := by
  cases a with
  | guest vmx =>
    show Inv m (guestDomainCreate m s vmx).1
    unfold guestDomainCreate
    split
    case isTrue => exact win98DomainCreate_inv hi vmx
    case isFalse hn => exact dosDomainCreate_inv hi hn vmx
  | kernel lm vmx => exact kernelDomainCreate_inv hi lm vmx
  | channels =>
    show Inv m (ipcChannelsCreate m s).1
    unfold ipcChannelsCreate
    split
    case isTrue => exact hi
    case isFalse hconf =>
      exact createChannels_inv (Bool.not_eq_false _ ▸ hconf) _ (fun c hc => List.mem_range.1 hc) hi

end Calls

end Win98Modern.Supervisor.DomainMemory
