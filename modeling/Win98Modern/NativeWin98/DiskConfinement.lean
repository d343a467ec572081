import Win98Modern.NativeWin98.DiskProgress
import Win98Modern.NativeWin98.VirtioBlk
import Win98Modern.Lib.Runs

/-!
# Confinement of the sealed disk

After an admission and a seal every write that reaches the device is to a sector of `DISK.IMG`, and
after a failed transfer the backend and the driver refuse everything (`disk_confined`).
-/

namespace Win98Modern.NativeWin98

open List

namespace Vblk

variable {v v' : Vblk} {type : ReqType} {lba : Nat} {io : SubmitIo}

theorem memberLba_iff : v.memberLba lba = true ↔ lba ∈ mapped v.extent := by
  unfold memberLba mapped
  rw [any_eq_true, mem_flatMap]
  refine exists_congr fun x => and_congr_right fun _ => ?_
  rw [decide_eq_true_eq, mem_range'_1]
  unfold InRange
  omega

theorem sealMember_spec {m : Persist} {expired : Bool} (h : v.sealMember m expired = some v') :
    v' = { v with extent := m.extent, sealed := true } := by
  obtain ⟨-, h⟩ := Option.ite_none_left_eq_some.1 h
  cases hloop : sealLoop v.sectors [] m.extent 0 with
  | none =>
    rw [hloop] at h
    cases h
  | some logical =>
    rw [hloop] at h
    exact (Option.some.inj (Option.ite_none_left_eq_some.1 h).2).symm

theorem submit_cases (v : Vblk) (type : ReqType) (lba : Nat) (io : SubmitIo) :
    (v.Refuses type lba ∧ v.submit type lba io = (v, none)) ∨
    (¬v.Refuses type lba ∧ v.submit type lba io = (v.fail io, none)) ∨
    (¬v.Refuses type lba ∧ ∃ r : Request, r.type = type ∧ (type = .write → r.sector = lba) ∧
      (v.submit type lba io = (fail { v with requests := r :: v.requests } io, none) ∨
        v.submit type lba io = ({ v with requests := r :: v.requests }, some io.data))) := by
  unfold submit
  by_cases href : v.Refuses type lba
  · rw [if_pos href]
    exact .inl ⟨href, rfl⟩
  · rw [if_neg href]
    by_cases hearly : ¬io.admitted ∨ ¬io.idle ∨ ¬io.mapped
    · rw [if_pos hearly]
      exact .inr (.inl ⟨href, rfl⟩)
    · rw [if_neg hearly]
      refine .inr (.inr ⟨href, ⟨type, if type = .flush then 0 else lba⟩, rfl, ?_, ?_⟩)
      · rintro rfl
        rfl
      · simp only
        split
        · exact .inl rfl
        · exact .inr rfl

theorem submit_of_failed (h : v.failed = true) (type : ReqType) (lba : Nat) (io : SubmitIo) :
    v.submit type lba io = (v, none) := if_pos (.inr (.inl h))

/-- The driver is sealed with these extents, and of the requests other than `old` writes are to them. -/
structure SealedWith (old : List Request) (extent : List Extent) (v : Vblk) : Prop where
  sealed : v.sealed = true
  extent_eq : v.extent = extent
  confined : ∀ r ∈ v.requests, r ∈ old ∨ (r.type = .write → r.sector ∈ mapped extent)

variable {old : List Request} {extent : List Extent}

theorem SealedWith.fail (h : SealedWith old extent v) (io : SubmitIo) :
    SealedWith old extent (v.fail io) := ⟨h.sealed, h.extent_eq, h.confined⟩

/-- **One transfer** puts no write into the queue but to the member. -/
theorem SealedWith.submit (h : SealedWith old extent v) (type : ReqType) (lba : Nat) (io : SubmitIo) :
    SealedWith old extent (v.submit type lba io).1 := by
  obtain ⟨-, he⟩ | ⟨-, he⟩ | ⟨href, r, htype, hsector, he⟩ := submit_cases v type lba io
  · rw [he]
    exact h
  · rw [he]
    exact h.fail io
  · have hpush : SealedWith old extent { v with requests := r :: v.requests } := by
      refine ⟨h.sealed, h.extent_eq, fun r' hr' => ?_⟩
      obtain rfl | hr' := mem_cons.1 hr'
      · refine .inr fun hwrite => ?_
        have htw : type = .write := htype.symm.trans hwrite
        have hmember : v.memberLba lba = true := by
          by_contra hno
          exact href (.inr (.inr (.inr (.inl ⟨htw, .inr hno⟩))))
        rw [hsector htw, ← h.extent_eq]
        exact memberLba_iff.1 hmember
      · exact h.confined r' hr'
    obtain he | he := he
    · rw [he]
      exact hpush.fail io
    · rw [he]
      exact hpush

end Vblk

namespace DiskSystem

variable {s : DiskSystem} {a : DiskAct}

/-- The call of `submit` that an act makes. -/
def call (s : DiskSystem) : DiskAct → Option (ReqType × Nat × SubmitIo)
  | .memberRead sector io => (s.m.location sector).bind fun lba =>
    if s.m.busy then none else some (.read, lba, io)
  | .memberWrite sector io => (s.m.location sector).bind fun lba =>
    if s.m.busy then none else some (.write, lba, io)
  | .memberFlush io =>
    if ¬s.m.admitted ∨ s.m.failed ∨ s.m.busy then none
    else if s.v.sealed then some (.flush, 0, io) else none
  | .readBlock lba count io => if count = 1 then some (.read, lba, io) else none
  | .writeBlock lba count io => if count = 1 then some (.write, lba, io) else none
  | .flushBlock io => if s.v.sealed then some (.flush, 0, io) else none
  | .close _ => none
  | .contend _ _ => none

def OnMember : DiskAct → Prop
  | .memberRead _ _ | .memberWrite _ _ | .memberFlush _ => True
  | _ => False

variable {lba : Nat} {io : SubmitIo}

theorem act_of_call {type : ReqType} (h : s.call a = some (type, lba, io)) :
    (OnMember a ∧ s.act a = s.finish (s.v.submit type lba io)) ∨
      (¬OnMember a ∧ s.act a = s.direct (s.v.submit type lba io)) := by
  cases a with
  | memberRead sector io' =>
    obtain ⟨lba', hloc, h⟩ := Option.bind_eq_some_iff.1 h
    obtain ⟨hbusy, h⟩ := Option.ite_none_left_eq_some.1 h
    obtain ⟨rfl, rfl, rfl⟩ := by simpa using h
    refine .inl ⟨trivial, ?_⟩
    show s.memberRead sector io' = _
    unfold memberRead
    simp only [hloc, if_neg hbusy]
    rfl
  | memberWrite sector io' =>
    obtain ⟨lba', hloc, h⟩ := Option.bind_eq_some_iff.1 h
    obtain ⟨hbusy, h⟩ := Option.ite_none_left_eq_some.1 h
    obtain ⟨rfl, rfl, rfl⟩ := by simpa using h
    refine .inl ⟨trivial, ?_⟩
    show s.memberWrite sector io' = _
    unfold memberWrite
    simp only [hloc, if_neg hbusy]
    rfl
  | memberFlush io' =>
    obtain ⟨hopen, h⟩ := Option.ite_none_left_eq_some.1 h
    obtain ⟨hsealed, h⟩ := Option.ite_none_right_eq_some.1 h
    obtain ⟨rfl, rfl, rfl⟩ := by simpa using h
    refine .inl ⟨trivial, ?_⟩
    show s.memberFlush io' = _
    unfold memberFlush Vblk.flushBlock
    rw [if_neg hopen, if_pos hsealed]
  | readBlock lba' count io' =>
    obtain ⟨hcount, h⟩ := Option.ite_none_right_eq_some.1 h
    obtain ⟨rfl, rfl, rfl⟩ := by simpa using h
    exact .inr ⟨id, congrArg s.direct (if_pos hcount)⟩
  | writeBlock lba' count io' =>
    obtain ⟨hcount, h⟩ := Option.ite_none_right_eq_some.1 h
    obtain ⟨rfl, rfl, rfl⟩ := by simpa using h
    exact .inr ⟨id, congrArg s.direct (if_pos hcount)⟩
  | flushBlock io' =>
    obtain ⟨hsealed, h⟩ := Option.ite_none_right_eq_some.1 h
    obtain ⟨rfl, rfl, rfl⟩ := by simpa using h
    exact .inr ⟨id, congrArg s.direct (if_pos hsealed)⟩
  | close io' => cases h
  | contend member driver => cases h

theorem finish_spec (s : DiskSystem) (r : Vblk × Option Sector) : (s.finish r).1.v = r.1 ∧
    (s.finish r).2 = r.2 ∧ (r.2 = none → (s.finish r).1.m.failed = true) := by
  obtain ⟨v, _ | data⟩ := r
  · exact ⟨rfl, rfl, fun _ => rfl⟩
  · exact ⟨rfl, rfl, nofun⟩

theorem act_eq_submit {type : ReqType} (h : s.call a = some (type, lba, io)) :
    (s.act a).1.v = (s.v.submit type lba io).1 ∧ (s.act a).2 = (s.v.submit type lba io).2 := by
  obtain ⟨-, he⟩ | ⟨-, he⟩ := act_of_call h
  · rw [he]
    obtain ⟨hv, hr, -⟩ := s.finish_spec (s.v.submit type lba io)
    exact ⟨hv, hr⟩
  · rw [he]
    exact ⟨rfl, rfl⟩

/-- The queue and the seal are the same, and the driver failed if it had failed. -/
structure Quiet (v v' : Vblk) : Prop where
  requests : v'.requests = v.requests
  sealed : v'.sealed = v.sealed
  extent : v'.extent = v.extent
  failed : v.failed = true → v'.failed = true

theorem Quiet.refl (v : Vblk) : Quiet v v := ⟨rfl, rfl, rfl, id⟩

theorem act_of_no_call (h : s.call a = none) : (s.act a).2 = none ∧ Quiet s.v (s.act a).1.v := by
  have hsame : ∀ r : DiskSystem × Option Sector, r = (s, none) → r.2 = none ∧ Quiet s.v r.1.v := by
    rintro r rfl
    exact ⟨rfl, .refl _⟩
  cases a with
  | memberRead sector io =>
    have hcall : ((s.m.location sector).bind fun lba =>
      if s.m.busy then none else some (ReqType.read, lba, io)) = none := h
    apply hsame
    show s.memberRead sector io = (s, none)
    unfold memberRead
    cases hloc : s.m.location sector with
    | none => rfl
    | some lba =>
      rw [hloc, Option.bind_some] at hcall
      by_cases hbusy : s.m.busy = true
      · exact if_pos hbusy
      · rw [if_neg hbusy] at hcall
        cases hcall
  | memberWrite sector io =>
    have hcall : ((s.m.location sector).bind fun lba =>
      if s.m.busy then none else some (ReqType.write, lba, io)) = none := h
    apply hsame
    show s.memberWrite sector io = (s, none)
    unfold memberWrite
    cases hloc : s.m.location sector with
    | none => rfl
    | some lba =>
      rw [hloc, Option.bind_some] at hcall
      by_cases hbusy : s.m.busy = true
      · exact if_pos hbusy
      · rw [if_neg hbusy] at hcall
        cases hcall
  | memberFlush io =>
    have hcall : (if ¬s.m.admitted ∨ s.m.failed ∨ s.m.busy then none
      else if s.v.sealed then some (ReqType.flush, 0, io) else none) = none := h
    show (s.memberFlush io).2 = none ∧ Quiet s.v (s.memberFlush io).1.v
    unfold memberFlush
    by_cases hopen : ¬s.m.admitted ∨ s.m.failed ∨ s.m.busy
    · rw [if_pos hopen]
      exact ⟨rfl, .refl _⟩
    · rw [if_neg hopen] at hcall ⊢
      unfold Vblk.flushBlock
      by_cases hsealed : s.v.sealed = true
      · rw [if_pos hsealed] at hcall
        cases hcall
      · rw [if_neg hsealed]
        exact ⟨rfl, .refl _⟩
  | readBlock lba count io =>
    have hcall : (if count = 1 then some (ReqType.read, lba, io) else none) = none := h
    have hcount : count ≠ 1 := fun h1 => by rw [if_pos h1] at hcall; cases hcall
    apply hsame
    exact congrArg s.direct (if_neg hcount)
  | writeBlock lba count io =>
    have hcall : (if count = 1 then some (ReqType.write, lba, io) else none) = none := h
    have hcount : count ≠ 1 := fun h1 => by rw [if_pos h1] at hcall; cases hcall
    apply hsame
    exact congrArg s.direct (if_neg hcount)
  | flushBlock io =>
    have hcall : (if s.v.sealed then some (ReqType.flush, 0, io) else none) = none := h
    have hsealed : ¬s.v.sealed = true := fun h1 => by rw [if_pos h1] at hcall; cases hcall
    apply hsame
    exact congrArg s.direct (if_neg hsealed)
  | close io =>
    refine ⟨rfl, ?_⟩
    show Quiet s.v (s.v.close io)
    unfold Vblk.close
    split
    · exact .refl _
    · exact ⟨rfl, rfl, rfl, fun _ => rfl⟩
  | contend member driver => exact ⟨rfl, rfl, rfl, rfl, id⟩

open Vblk (SealedWith)

variable {old : List Request} {extent : List Extent}

theorem sealedWith_step (h : SealedWith old extent s.v) (a : DiskAct) :
    SealedWith old extent (s.step a).v := by
  cases hcall : s.call a with
  | none =>
    obtain ⟨-, hquiet⟩ := act_of_no_call hcall
    refine ⟨hquiet.sealed.trans h.sealed, hquiet.extent.trans h.extent_eq, fun r hr => h.confined r ?_⟩
    rw [← hquiet.requests]
    exact hr
  | some c =>
    obtain ⟨type, lba, io⟩ := c
    have hv : (s.step a).v = (s.v.submit type lba io).1 := (act_eq_submit hcall).1
    rw [hv]
    exact h.submit type lba io

/-! ### Failed transfers -/

/-- The act returns no result and puts nothing into the queue. -/
def Refused (s : DiskSystem) (a : DiskAct) : Prop :=
  (s.act a).2 = none ∧ (s.step a).v.requests = s.v.requests

/-- A transfer that the driver began and that did not succeed. -/
def TransferFails (s : DiskSystem) (a : DiskAct) : Prop :=
  ∃ type lba io, s.call a = some (type, lba, io) ∧ ¬s.v.Refuses type lba ∧ (s.act a).2 = none

theorem failed_of_transferFails (h : s.TransferFails a) : (s.step a).v.failed = true := by
  obtain ⟨type, lba, io, hcall, hbegun, hresult⟩ := h
  obtain ⟨hv, hr⟩ := act_eq_submit hcall
  rw [hr] at hresult
  show (s.act a).1.v.failed = true
  rw [hv]
  obtain ⟨href, -⟩ | ⟨-, he⟩ | ⟨-, r, -, -, he | he⟩ := Vblk.submit_cases s.v type lba io
  · exact absurd href hbegun
  · rw [he]
    rfl
  · rw [he]
    rfl
  · rw [he] at hresult
    cases hresult

theorem refused_of_failed (h : s.v.failed = true) (a : DiskAct) :
    s.Refused a ∧ (s.step a).v.failed = true := by
  cases hcall : s.call a with
  | none =>
    obtain ⟨hresult, hquiet⟩ := act_of_no_call hcall
    exact ⟨⟨hresult, hquiet.requests⟩, hquiet.failed h⟩
  | some c =>
    obtain ⟨type, lba, io⟩ := c
    obtain ⟨hv, hr⟩ := act_eq_submit hcall
    have hsubmit := Vblk.submit_of_failed h type lba io
    have hv' : (s.step a).v = s.v := hv.trans (congrArg Prod.fst hsubmit)
    refine ⟨⟨hr.trans (congrArg Prod.snd hsubmit), ?_⟩, ?_⟩
    · rw [hv']
    · rw [hv']
      exact h

/-- A transfer through the backend that did not succeed. -/
def BackendFails (s : DiskSystem) (a : DiskAct) : Prop :=
  OnMember a ∧ (s.call a).isSome ∧ (s.act a).2 = none

theorem failed_of_backendFails (h : s.BackendFails a) : (s.step a).m.failed = true := by
  obtain ⟨hmember, hcall, hresult⟩ := h
  obtain ⟨⟨type, lba, io⟩, hcall⟩ := Option.isSome_iff_exists.1 hcall
  obtain ⟨-, he⟩ | ⟨hno, -⟩ := act_of_call hcall
  · rw [he] at hresult
    show (s.act a).1.m.failed = true
    obtain ⟨-, hr, hfailed⟩ := s.finish_spec (s.v.submit type lba io)
    rw [he]
    exact hfailed (hr.symm.trans hresult)
  · exact absurd hmember hno

theorem refused_of_backend_failed (h : s.m.failed = true) (a : DiskAct) :
    (OnMember a → s.Refused a) ∧ (s.step a).m.failed = true := by
  have hloc : ∀ sector, s.m.location sector = none := fun sector => if_pos (.inr (.inl h))
  cases a with
  | memberRead sector io =>
    have he : s.memberRead sector io = (s, none) := by
      unfold memberRead
      simp only [hloc]
    exact ⟨fun _ => ⟨congrArg Prod.snd he, congrArg (fun r => r.1.v.requests) he⟩,
      (congrArg (fun r => r.1.m.failed) he).trans h⟩
  | memberWrite sector io =>
    have he : s.memberWrite sector io = (s, none) := by
      unfold memberWrite
      simp only [hloc]
    exact ⟨fun _ => ⟨congrArg Prod.snd he, congrArg (fun r => r.1.v.requests) he⟩,
      (congrArg (fun r => r.1.m.failed) he).trans h⟩
  | memberFlush io =>
    have he : s.memberFlush io = (s, none) := if_pos (.inr (.inl h))
    exact ⟨fun _ => ⟨congrArg Prod.snd he, congrArg (fun r => r.1.v.requests) he⟩,
      (congrArg (fun r => r.1.m.failed) he).trans h⟩
  | _ => exact ⟨fun hno => hno.elim, h⟩

theorem along_refused (acts : List DiskAct) (h : s.v.failed = true) : Steps step Refused s acts :=
  along_of_inv acts (fun _ _ => trivial)
    (fun _ a hs _ _ => refused_of_failed hs a) h (along_true s acts)

theorem along_backend_refused (acts : List DiskAct) (h : s.m.failed = true) :
    Steps step (fun s a => OnMember a → s.Refused a) s acts :=
  along_of_inv acts (fun _ _ => trivial)
    (fun _ a hs _ _ => refused_of_backend_failed hs a) h (along_true s acts)

theorem along_sealed (acts : List DiskAct) (h : SealedWith old extent s.v) :
    Along step (fun s => ∀ r ∈ s.v.requests, r ∈ old ∨ (r.type = .write → r.sector ∈ mapped extent))
      (fun _ _ => True) s acts :=
  along_of_inv (I := fun s => SealedWith old extent s.v) acts (fun _ hs => hs.confined)
    (fun _ a hs _ _ => ⟨trivial, sealedWith_step hs a⟩) h (along_true s acts)

end DiskSystem

open DiskSystem

/-! ### An admitted volume -/

/-- Clusters of 64 sectors; the root directory is the cluster 2, `SHZDOS` the cluster 3, and
`DISK.IMG` the clusters from 4 to 65539. -/
def sampleBoot : Sector := fun i =>
  match i with
  | 12 => 2 | 13 => 64 | 14 => 32 | 16 => 2 | 21 => 0xf8 | 34 => 0x48 | 36 => 0x40 | 37 => 2
  | 44 => 2 | 48 => 1 | 50 => 6 | 67 => 0x39 | 68 => 0x57 | 69 => 0x48 | 70 => 0x53
  | 82 => 0x46 | 83 => 0x41 | 84 => 0x54 | 85 => 0x33 | 86 => 0x32 | 87 => 0x20 | 88 => 0x20
  | 89 => 0x20 | 510 => 0x55 | 511 => 0xaa | _ => 0

def sampleInfo : Sector := fun i =>
  match i with
  | 0 | 1 => 0x52 | 2 => 0x61 | 3 => 0x41 | 484 | 485 => 0x72 | 486 => 0x41 | 487 => 0x61
  | 488 | 489 | 490 | 491 | 492 | 493 | 494 | 495 => 0xff | 510 => 0x55 | 511 => 0xaa | _ => 0

def sampleFat (n : Nat) : Nat :=
  if n = 0 then 0x0ffffff8
  else if n < 4 then 0x0fffffff
  else if n < 65539 then n + 1
  else if n = 65539 then 0x0fffffff
  else 0

def sampleEntry (name : String) (attr first top : Byte) : Sector := fun i =>
  if i < 11 then BitVec.ofNat 8 (name.toList.getD i ' ').toNat
  else if i = 11 then attr else if i = 26 then first else if i = 31 then top else 0

def sampleContent (lba : Nat) : Sector :=
  if lba = 0 ∨ lba = 6 then sampleBoot
  else if lba = 1 ∨ lba = 7 then sampleInfo
  else if 32 ≤ lba ∧ lba < 1184 then fun i =>
    BitVec.ofNat 8 (sampleFat (128 * ((lba - 32) % 576) + i / 4) / 256 ^ (i % 4))
  else if lba = 1184 then sampleEntry "SHZDOS     " 16 3 0
  else if lba = 1248 then sampleEntry "DISK    IMG" 0 4 0x80
  else fun _ => 0

def sampleEsp : Esp := ⟨sampleContent, fun _ => false⟩

def sampleBlock : OwnedBlock := ⟨W98_PERSIST_ESP_SECTORS, 1, .vblk⟩

def sampleGeo : Geometry := ⟨64, 32, 576, 1184, 73709, 2⟩

theorem sampleVolume : sampleEsp.volume = ⟨sampleGeo, sampleContent⟩ := by
  rfl

theorem sampleReadable : Readable sampleEsp ⟨sampleGeo, sampleContent⟩ sampleBlock := by
  refine ⟨fun _ => rfl, by decide, fun s hs => ?_⟩
  have hs' : s < 576 := hs
  show sampleContent (32 + 576 + s) = sampleContent (32 + s)
  unfold sampleContent
  rw [if_neg (by omega), if_neg (by omega), if_pos (by omega), if_neg (by omega), if_neg (by omega),
    if_pos (by omega), show (32 + 576 + s - 32) % 576 = (32 + s - 32) % 576 by omega]

variable {n : Nat} {m : Persist}

theorem sampleNext (hn : n < 73728) :
    (⟨sampleGeo, sampleContent⟩ : Volume).next n = sampleFat n := by
  have hbyte : ∀ k < 4, (sampleContent (32 + n / 128) (n % 128 * 4 + k)).toNat =
      sampleFat n / 256 ^ k % 256 := by
    intro k hk
    unfold sampleContent
    rw [if_neg (by omega), if_neg (by omega), if_pos (by omega), BitVec.toNat_ofNat]
    rw [show 128 * ((32 + n / 128 - 32) % 576) + (n % 128 * 4 + k) / 4 = n by omega,
      show (n % 128 * 4 + k) % 4 = k by omega]
  have hfat : sampleFat n < 2 ^ 28 := by
    unfold sampleFat
    split_ifs <;> omega
  have hword : u32 (sampleContent (32 + n / 128)) (n % 128 * 4) = sampleFat n := by
    have h0 := hbyte 0 (by decide)
    have h1 := hbyte 1 (by decide)
    have h2 := hbyte 2 (by decide)
    have h3 := hbyte 3 (by decide)
    unfold u32 u16
    rw [Nat.add_zero] at h0
    rw [h0, h1, h2, show n % 128 * 4 + 2 + 1 = n % 128 * 4 + 3 from rfl, h3]
    omega
  show u32 (sampleContent (32 + n / 128)) (n % 128 * 4) &&& 0x0fffffff = sampleFat n
  rw [hword]
  exact Nat.and_two_pow_sub_one_of_lt_two_pow hfat

theorem sampleInfo_ok (hblock : m.block = sampleBlock) :
    m.fsInfo sampleEsp 1 = some { m with reads := m.reads + 1 } ∧
      m.fsInfo sampleEsp 7 = some { m with reads := m.reads + 1 } := by
  have hread : ∀ lba, lba < 8 → m.rawRead sampleEsp lba =
      some (sampleContent lba, { m with reads := m.reads + 1 }) := fun lba hlba =>
    rawRead_ok (fun _ => rfl) (by rw [hblock]; exact Nat.lt_trans hlba (by decide))
  unfold Persist.fsInfo
  rw [hread 1 (by decide), hread 7 (by decide), Option.bind_eq_bind, Option.bind_some]
  exact ⟨rfl, rfl⟩

theorem sampleBlank : (∀ k ∈ List.range' 1 15, ∀ i < 32, slot (sampleContent 1184) k i = 0) ∧
    (∀ k ∈ List.range' 1 15, ∀ i < 32, slot (sampleContent 1248) k i = 0) ∧
    (∀ s ∈ List.range' 1 63, ∀ i < 512, sampleContent (1184 + s) i = 0) ∧
    ∀ s ∈ List.range' 1 63, ∀ i < 512, sampleContent (1248 + s) i = 0 := by
  have hentry : ∀ name attr first top, ∀ k ∈ List.range' 1 15, ∀ i < 32,
      slot (sampleEntry name attr first top) k i = 0 := by
    intro name attr first top k hk i _
    have := mem_range'_1.1 hk
    unfold slot sampleEntry
    rw [if_neg (by omega), if_neg (by omega), if_neg (by omega), if_neg (by omega)]
  have hzero : ∀ lba, 1184 < lba → lba ≠ 1248 → sampleContent lba = fun _ => 0 := by
    intro lba h1 h2
    unfold sampleContent
    rw [if_neg (by omega), if_neg (by omega), if_neg (by omega), if_neg (by omega), if_neg h2]
  refine ⟨hentry _ _ _ _, hentry _ _ _ _, fun s hs i _ => ?_, fun s hs i _ => ?_⟩
  · have := mem_range'_1.1 hs
    rw [hzero _ (by omega) (by omega)]
  · have := mem_range'_1.1 hs
    rw [hzero _ (by omega) (by omega)]

/-- The walk after the root directory. -/
def sampleWalk (cache : Option (Nat × Sector)) (seen : Nat → Bool) (reads : Nat) (ended : Bool) : Walk :=
  ⟨⟨sampleBlock, sampleGeo, [], [⟨2, 0, 0, false⟩, ⟨3, 2, 1, true⟩],
    [(0, foldName (slot (sampleContent 1184) 0))], 1, cache, seen, reads, false, false, false⟩,
    ended, 1, 0⟩

theorem sampleRoot_entry (cache : Option (Nat × Sector)) (seen : Nat → Bool) (reads : Nat) :
    Walk.entry sampleEsp ⟨2, 0, 0, false⟩ 0
      ⟨⟨sampleBlock, sampleGeo, [], [⟨2, 0, 0, false⟩], [], 0, cache, seen, reads, false, false, false⟩,
        false, 0, 0⟩ (slot (sampleContent 1184) 0) = some (sampleWalk cache seen reads false) := by
  rfl

theorem sampleDisk_entry (cache : Option (Nat × Sector)) (seen : Nat → Bool) (reads : Nat) :
    Walk.entry sampleEsp ⟨3, 2, 1, true⟩ 1 (sampleWalk cache seen reads false)
        (slot (sampleContent 1248) 0) =
      ({ (sampleWalk cache seen reads false).m with
          entriesSeen := 2
          name := (sampleWalk cache seen reads false).m.name ++
            [(1, foldName (slot (sampleContent 1248) 0))] }.fileChain sampleEsp 4 (2 <<< 30) true).bind
        fun m => some ⟨m, false, 1, 1⟩ := by
  rfl

theorem sampleValid (h2 : 2 ≤ n) (hn : n < 65540) : ValidCluster sampleGeo n := by
  have hclusters : sampleGeo.clusters = 73709 := rfl
  unfold ValidCluster
  omega

theorem sampleWalked {cache : Option (Nat × Sector)} {reads : Nat}
    (hb : Base sampleEsp ⟨sampleGeo, sampleContent⟩ sampleBlock (fun _ => none)
      (Walk.start sampleBlock sampleGeo cache reads).m) :
    ∃ w own, Walk.directories sampleEsp W98_PERSIST_MAX_DIRS (.start sampleBlock sampleGeo cache reads) 0 =
        some w ∧
      Base sampleEsp ⟨sampleGeo, sampleContent⟩ sampleBlock own w.m ∧ w.shzdos = 1 ∧ w.disk = 1 ∧
      w.m.extent = [⟨0, W98_PERSIST_DISK_SECTORS, 1312⟩] ∧ ∀ n, 2 ≤ n → n < 65540 → own n ≠ none := by
  have hsized : Sized sampleGeo := ⟨by decide, by decide, by decide, by decide⟩
  have hfat : sampleGeo.clusters + 2 ≤ sampleGeo.fatSectors * 128 := by decide
  have hdata : sampleGeo.dataLba + sampleGeo.clusters * sampleGeo.spc ≤ sampleBlock.sectors := by decide
  obtain ⟨hrest₀, hrest₁, hblank₀, hblank₁⟩ := sampleBlank
  have heoc : ∀ n, 1 ≤ n → n < 4 → Eoc ((⟨sampleGeo, sampleContent⟩ : Volume).next n) := by
    intro n h1 hn
    rw [sampleNext (by omega)]
    unfold sampleFat
    rw [if_neg (by omega), if_pos hn]
    decide
  obtain ⟨w₁, own₁, hdir₁, hroot, -, hb₁, seen, cache₁, reads₁, ended₁, rfl, honly₁⟩ :=
    directory_ok 0 (w := .start sampleBlock sampleGeo cache reads) (d := ⟨2, 0, 0, false⟩)
      sampleReadable hsized hb hfat hdata (sampleValid (by decide) (by decide)) rfl
      (heoc 2 (by decide) (by decide)) hrest₀ hblank₀
      (Q := fun own w => ∃ seen cache reads ended, w = sampleWalk cache seen reads ended ∧
        ∀ n, 3 ≤ n → own n = none)
      (by
        rintro own w cache' reads' ⟨seen, _, _, _, rfl, honly⟩
        exact ⟨seen, cache', reads', true, rfl, honly⟩)
      (fun seen reads' hb' => ⟨sampleWalk cache seen reads' false, _, sampleRoot_entry cache seen reads',
        .refl _, ⟨hb'.content, hb'.geo, hb'.block, hb'.failed, hb'.cache, hb'.claimed, hb'.valid⟩,
        seen, cache, reads', false, rfl, fun n hn => Function.update_of_ne (by
          show n ≠ 2
          omega) ..⟩)
  obtain ⟨w₂, own₂, hdir₂, hshz, hext₂, hb₂, hcount, hdisk, hdirs, hextent, hfile⟩ :=
    directory_ok 1 (w := sampleWalk cache₁ seen reads₁ ended₁) (d := ⟨3, 2, 1, true⟩)
      sampleReadable hsized hb₁ hfat hdata (sampleValid (by decide) (by decide))
      (honly₁ 3 (Nat.le_refl 3)) (heoc 3 (by decide) (by decide)) hrest₁ hblank₁
      (Q := fun own w => w.shzdos = 1 ∧ w.disk = 1 ∧ w.m.directory.length = 2 ∧
        w.m.extent = [⟨0, W98_PERSIST_DISK_SECTORS, 1312⟩] ∧ ∀ n, 4 ≤ n → n < 65540 → own n ≠ none)
      (fun own w cache' reads' h => h)
      (by
        intro seen' reads' hb'
        obtain ⟨m', own', hchain, hext, hown, -, hb'', ⟨_, _, _, _, rfl⟩, hone⟩ :=
          fileChain_ok (n := 4)
            (m := { (sampleWalk cache₁ seen' reads' false).m with
              entriesSeen := 2
              name := (sampleWalk cache₁ seen' reads' false).m.name ++
                [(1, foldName (slot (sampleContent 1248) 0))] })
            sampleReadable hsized (.file (1248, 0)) hfat hdata 65535 (by decide)
            ⟨hb'.content, hb'.geo, hb'.block, hb'.failed, hb'.cache, hb'.claimed, hb'.valid⟩ rfl
            (fun i hi => ⟨sampleValid (by omega) (by omega), by
              rw [Function.update_of_ne (by show 4 + i ≠ 3; omega)]
              exact honly₁ _ (by omega)⟩)
            (fun i hi => by
              rw [sampleNext (by omega)]
              unfold sampleFat
              rw [if_neg (by omega), if_neg (by omega), if_pos (by omega)])
            (by
              decide)
        refine ⟨_, own', (sampleDisk_entry cache₁ seen' reads').trans (by rw [hchain]; rfl), hext, hb'',
          rfl, rfl, rfl, hone, fun n h4 hn => ?_⟩
        have := hown (n - 4) (by omega)
        rw [show 4 + (n - 4) = n by omega] at this
        rw [this]
        nofun)
  have hlast : w₂.m.directory[2]? = none := List.getElem?_eq_none (by omega)
  refine ⟨w₂, own₂, ?_, hb₂, hcount, hdisk, hextent, fun n h2 hn => ?_⟩
  · show Walk.directories sampleEsp (125 + 1 + 1 + 1) _ 0 = _
    rw [directories_some rfl hdir₁, directories_some rfl hdir₂, directories_none hlast]
  · obtain rfl | rfl | h4 : n = 2 ∨ n = 3 ∨ 4 ≤ n := by omega
    · obtain ⟨o, ho⟩ := Option.ne_none_iff_exists'.1 hroot
      rw [hext₂ 2 o ho]
      nofun
    · exact hshz
    · exact hfile n h4 hn

theorem sampleInit : ∃ m, persistDiskInit sampleEsp true sampleBlock = some m ∧
    m.extent = [⟨0, W98_PERSIST_DISK_SECTORS, 1312⟩] := by
  have hboot : sampleEsp.content 0 = sampleBoot := rfl
  have hgeo : geometryOf (sampleEsp.content 0) = sampleGeo := by
    rfl
  have hnext : ∀ n, n < 73728 → sampleEsp.volume.next n = sampleFat n := by
    intro n hn
    exact sampleNext hn
  apply persistDiskInit_ok (by rw [sampleVolume]; exact sampleReadable) rfl (by decide)
  · rw [hboot]
    decide
  · rw [hgeo, hboot]
    decide
  · exact fun _ _ => rfl
  · exact fun m hblock _ => sampleInfo_ok hblock
  · rw [hnext 0 (by decide)]
    rfl
  · rw [hnext 1 (by decide)]
    rfl
  · nofun
  · rw [sampleVolume]
    intro cache reads hb
    obtain ⟨w, own, hdirs, hw, hshzdos, hdisk, hext, hown⟩ := sampleWalked hb
    refine ⟨w, own, hdirs, hw, hshzdos, hdisk, hext, fun n hn => ?_⟩
    have hrange : 2 ≤ n ∧ n < 73711 := mem_range'_1.1 hn
    refine ⟨by show n / 128 < 576; omega, ?_⟩
    rw [sampleNext (by omega)]
    by_cases hused : n < 65540
    · exact .inr ⟨sampleValid hrange.1 hused, hown n hrange.1 hused⟩
    · refine .inl ?_
      unfold sampleFat
      rw [if_neg (by omega), if_neg (by omega), if_neg (by omega), if_neg (by omega)]

def sampleVblk : Vblk := ⟨1, W98_PERSIST_ESP_SECTORS, true, false, false, false, false, [], []⟩

theorem sampleSeal (h : persistDiskInit sampleEsp true sampleBlock = some m)
    (hextent : m.extent = [⟨0, W98_PERSIST_DISK_SECTORS, 1312⟩]) :
    sampleVblk.sealMember m false = some { sampleVblk with extent := m.extent, sealed := true } := by
  obtain ⟨hadmitted, hfailed, hblock, -⟩ := persistDiskInit_spec h
  have hloop : Vblk.sealLoop sampleVblk.sectors [] m.extent 0 = some W98_PERSIST_DISK_SECTORS := by
    rw [hextent]
    rfl
  unfold Vblk.sealMember
  rw [if_neg, hloop]
  · exact if_neg (not_not_intro rfl)
  · rw [hadmitted, hfailed, hblock, hextent]
    decide

/-- **Confinement.**  For every content of the device and every pattern of failed reads: if the disk
is admitted and sealed, it is the image of `DISK.IMG` and `location` translates to it; in every run
every write that reaches the device is to one of its sectors; after a failed transfer the driver and
the backend refuse everything, and after a failed call through the backend the backend does. -/
theorem disk_confined {e : Esp} {optin expired : Bool} {b : OwnedBlock} {m : Persist} {v v' : Vblk}
    (hinit : persistDiskInit e optin b = some m) (hseal : v.sealMember m expired = some v') :
    ∃ a c, DiskImage e.volume b.sectors m a c ∧
      (∀ s, m.location s = (e.volume.sectors c)[s]?) ∧
      (∀ acts, Along step (fun s => ∀ r ∈ s.v.requests,
        r ∈ v.requests ∨ (r.type = .write → r.sector ∈ e.volume.sectors c)) (fun _ _ => True)
          ⟨m, v'⟩ acts) ∧
      ∀ (acts : List DiskAct) (a : DiskAct) (acts' : List DiskAct),
        let s := acts.foldl step ⟨m, v'⟩
        (s.TransferFails a → Steps step Refused (s.step a) acts') ∧
          (s.BackendFails a → Steps step (fun s a => OnMember a → s.Refused a) (s.step a) acts') := by
  obtain ⟨hadmitted, hfailed, hblock, -, a, c, himage⟩ := persistDiskInit_spec hinit
  refine ⟨a, c, himage, fun s => location_spec hadmitted hfailed (hblock ▸ himage) s, fun acts => ?_,
    fun acts a acts' => ⟨fun h => ?_, fun h => ?_⟩⟩
  · rw [← himage.maps.2]
    apply along_sealed
    rw [Vblk.sealMember_spec hseal]
    exact ⟨rfl, rfl, fun r hr => .inl hr⟩
  · exact along_refused acts' (failed_of_transferFails h)
  · exact along_backend_refused acts' (failed_of_backendFails h)

theorem disk_confined_sample : ∃ m v', persistDiskInit sampleEsp true sampleBlock = some m ∧
    sampleVblk.sealMember m false = some v' ∧
    ∃ a c, DiskImage sampleEsp.volume sampleBlock.sectors m a c ∧
      (∀ s, m.location s = (sampleEsp.volume.sectors c)[s]?) ∧
      (∀ acts, Along step (fun s => ∀ r ∈ s.v.requests,
        r ∈ sampleVblk.requests ∨ (r.type = .write → r.sector ∈ sampleEsp.volume.sectors c))
          (fun _ _ => True) ⟨m, v'⟩ acts) ∧
      ∀ (acts : List DiskAct) (a : DiskAct) (acts' : List DiskAct),
        let s := acts.foldl step ⟨m, v'⟩
        (s.TransferFails a → Steps step Refused (s.step a) acts') ∧
          (s.BackendFails a → Steps step (fun s a => OnMember a → s.Refused a) (s.step a) acts') := by
  obtain ⟨m, hinit, hextent⟩ := sampleInit
  have hseal := sampleSeal hinit hextent
  exact ⟨m, _, hinit, hseal, disk_confined hinit hseal⟩

end Win98Modern.NativeWin98
