import Obsy.Bytes.Slices
import Obsy.Part.Lowering

/-!
# The filters of a part in its index file

The index file of a part is a header and one section: for every row group the filter of its lines,
the number of its windows, and for every window a filter or one of two lengths that stand for none.
A reader walks over the section once and records where the bits of each filter are; a lookup goes
to the bits without another check.

* `GroupBlooms.encode`, `encodeBlooms`, `writeIndex`: the bytes of the file.
* `locateBlooms`, `buildBloomIndex`: the walk.
* `BloomIndex.contains`, `BloomIndex.predicateWindowMask`: lookups in the bits.
* `bloom_section`: what was written is what is found, no bytes make the walk or a lookup panic, and
  different fields have different tokens.
-/

namespace Obsy

namespace Part

open Bytes

/-! ### The writers -/

/-- `BLM1`. -/
def filterMagic : List UInt8 := [0x42, 0x4c, 0x4d, 0x31]

/-- `BTF5`. -/
def bloomMagic : List UInt8 := [0x42, 0x54, 0x46, 0x35]

/-- `LTIX1`. -/
def indexMagic : List UInt8 := [0x4c, 0x54, 0x49, 0x58, 0x31]

/-- The length that stands for a saturated window. -/
def saturatedWindowSentinel : ℕ := 2 ^ 32 - 1

/-- Magic, number of bits, number of probes. -/
def bloomHeaderBytes : ℕ := 12

/-- Bytes after their length. -/
def lengthPrefixed (bytes : List UInt8) : List UInt8 := leBytes 4 bytes.length ++ bytes

namespace BloomFilter

def header (filter : BloomFilter) : List UInt8 :=
  filterMagic ++ (leBytes 4 filter.numBits ++ leBytes 4 filter.k)

def encode (filter : BloomFilter) : List UInt8 := filter.header ++ packBits filter.bits

end BloomFilter

def WindowBloom.encode : WindowBloom → List UInt8
  | .absent => leBytes 4 0
  | .saturated => leBytes 4 saturatedWindowSentinel
  | .filter bloom => lengthPrefixed bloom.encode

/-- The bytes of `encode_group_blooms`. -/
def GroupBlooms.encode (blooms : GroupBlooms) : List UInt8 :=
  lengthPrefixed blooms.line.encode ++
    (leBytes 4 blooms.exactFields.length ++ blooms.exactFields.flatMap WindowBloom.encode)

/-- The section, from the bytes of the groups. -/
def encodeBlooms (groups : List GroupBlooms) : List UInt8 :=
  bloomMagic ++ (leBytes 4 groups.length ++ groups.flatMap GroupBlooms.encode)

/-- The file, unless the section is too large. -/
def writeIndexSections (bloom : List UInt8) : Option (List UInt8) :=
  if bloom.length < 2 ^ 32 then some (indexMagic ++ lengthPrefixed bloom) else none

/-- What a writer needs to know to make filters. -/
structure FilterSizes where
  line : FilterMath
  /-- The sizes of the filters of windows. -/
  window : FilterMath

/-- The index file for some row groups. -/
def writeIndex (sizes : FilterSizes) (charLower : Char → List Char)
    (groups : List (List (Row × Option Pairs))) : Option (List UInt8) := do
  let blooms ← groups.mapM (encodeGroupBlooms sizes.window.sizing sizes.line.sizing charLower)
  writeIndexSections (encodeBlooms blooms)

/-! ### The reader -/

/-- Where the bits of a filter are, and what its header says. -/
structure BloomLocation where
  offset : ℕ
  len : ℕ
  numBits : ℕ
  k : ℕ
deriving DecidableEq

/-- What is known of a window. -/
inductive WindowLocation where
  | absent
  | saturated
  | filter (location : BloomLocation)
deriving DecidableEq

/-- The number of bits and of probes of a filter. -/
def decodeBloomHeader (buf : List UInt8) : Except Fault (ℕ × ℕ) :=
  if buf.length < bloomHeaderBytes then .error (.error "bloom buffer too short")
  else do
    let magic ← slice buf 0 4
    if magic ≠ filterMagic then .error (.error "bloom magic mismatch")
    else do
      let numBits ← leNat <$> slice buf 4 8
      let k ← leNat <$> slice buf 8 12
      if numBits = 0 ∨ ¬ 8 ∣ numBits then .error (.error s!"invalid bloom num_bits {numBits}")
      else if buf.length ≠ bloomHeaderBytes + numBits / 8 then
        .error (.error (s!"bloom length mismatch: expected {bloomHeaderBytes + numBits / 8} " ++
          s!"got {buf.length}"))
      else .ok (numBits, k)

section

variable (buf : List UInt8) (base : ℕ)

/-- A filter at a position, and the position after it. -/
def locateLengthPrefixedBloom (pos : ℕ) : Except Fault (BloomLocation × ℕ) := do
  let lengthEnd ← checkedAdd "bloom length overflow" pos 4
  let len ← leNat <$> tryRange "bloom length truncated" buf pos lengthEnd
  let payloadEnd ← checkedAdd "bloom payload length overflow" lengthEnd len
  let payload ← tryRange "bloom payload truncated" buf lengthEnd payloadEnd
  let (numBits, k) ← decodeBloomHeader payload
  let bitsStart ← addUsize lengthEnd bloomHeaderBytes
  let absolute ← addUsize base bitsStart
  let offset ← tryU32 "bloom offset exceeds 4 GiB" absolute
  let len ← tryU32 "bloom payload exceeds 4 GiB" (payloadEnd - bitsStart)
  let numBits ← tryU32 "bloom num_bits overflow" numBits
  .ok (⟨offset, len, numBits, k⟩, payloadEnd)

/-- A window at a position: one of the two lengths that stand for no filter, or a filter. -/
def locateWindowBloom (pos : ℕ) : Except Fault (WindowLocation × ℕ) := do
  let stop ← addUsize pos 4
  if getRange buf pos stop = some [0, 0, 0, 0] then .ok (.absent, stop)
  else if getRange buf pos stop = some (leBytes 4 saturatedWindowSentinel) then
    .ok (.saturated, stop)
  else do
    let (location, pos) ← locateLengthPrefixedBloom buf base pos
    .ok (.filter location, pos)

def locateWindows : ℕ → ℕ → Except Fault (List WindowLocation × ℕ)
  | 0, pos => .ok ([], pos)
  | count + 1, pos => do
    let (window, pos) ← locateWindowBloom buf base pos
    let (windows, pos) ← locateWindows count pos
    .ok (window :: windows, pos)

/-- The filters of a row group of so many rows. -/
def locateGroup (group rows pos : ℕ) :
    Except Fault ((BloomLocation × List WindowLocation) × ℕ) := do
  let (line, pos) ← locateLengthPrefixedBloom buf base pos
  let stop ← checkedAdd "bloom window count overflow" pos 4
  let windowCount ← leNat <$> tryRange "bloom window count truncated" buf pos stop
  let expectedWindows := (rows + bloomWindowRows - 1) / bloomWindowRows
  if windowCount ≠ 0 ∧ windowCount ≠ expectedWindows then
    .error (.error (s!"bloom window count mismatch: group {group} has {rows} rows, " ++
      s!"expected {expectedWindows} windows, found {windowCount}"))
  else if 64 < windowCount then
    .error (.error s!"bloom window count {windowCount} exceeds the 64-window limit")
  else do
    let (windows, pos) ← locateWindows buf base windowCount stop
    .ok ((line, windows), pos)

/-- The filters of the row groups from one on. -/
def locateGroups : ℕ → List ℕ → ℕ → Except Fault (List (BloomLocation × List WindowLocation) × ℕ)
  | _, [], pos => .ok ([], pos)
  | group, rows :: rowGroupRows, pos => do
    let (located, pos) ← locateGroup buf base group rows pos
    let (rest, pos) ← locateGroups (group + 1) rowGroupRows pos
    .ok (located :: rest, pos)

/-- The filters of all row groups, in a section that starts at `base` in its file. -/
def locateBlooms (rowGroupRows : List ℕ) :
    Except Fault (List BloomLocation × List (List WindowLocation)) :=
  if buf.length < 8 then .error (.error "bloom file too short")
  else do
    let magic ← slice buf 0 4
    if magic ≠ bloomMagic then .error (.error "bloom magic mismatch")
    else do
      let count ← leNat <$> slice buf 4 8
      if count ≠ rowGroupRows.length then
        .error (.error (s!"row group count mismatch: bloom says {count}, " ++
          s!"metadata says {rowGroupRows.length}"))
      else do
        let (located, pos) ← locateGroups buf base 0 rowGroupRows 8
        if pos ≠ buf.length then .error (.error "bloom file has trailing bytes")
        else .ok (located.map Prod.fst, located.map Prod.snd)

end

/-- The section of an index file. -/
def splitIndex (buf : List UInt8) : Except Fault (List UInt8) :=
  if buf.take indexMagic.length ≠ indexMagic then
    .error (.error "part index file has an unrecognized header")
  else do
    let rest ← slice buf indexMagic.length buf.length
    if rest.length < 4 then .error (.error "part index file is truncated")
    else do
      let length ← leNat <$> slice rest 0 4
      let rest ← slice rest 4 rest.length
      if rest.length < length then .error (.error "part index file is truncated")
      else slice rest 0 length

/-- Where the section starts. -/
def indexBloomOffset (buf : List UInt8) : Except Fault ℕ :=
  if buf.length < indexMagic.length + 4 then .error (.error "part index file is truncated")
  else .ok (indexMagic.length + 4)

/-- The filters of a part, where they are in its index file. -/
structure BloomIndex where
  map : List UInt8
  line : List BloomLocation
  exactFields : List (List WindowLocation)

def buildBloomIndex (map : List UInt8) (rowGroupRows : List ℕ) : Except Fault BloomIndex := do
  let base ← indexBloomOffset map
  let bloom ← splitIndex map
  let (line, exactFields) ← locateBlooms bloom base rowGroupRows
  .ok ⟨map, line, exactFields⟩

/-! ### Lookups -/

/-- Whether all of some bits are set. -/
def allBits (bits : List UInt8) : List ℕ → Except Fault Bool
  | [] => .ok true
  | i :: indexes => do
    let byte ← byteAt bits (i / 8)
    if byte &&& (1 <<< UInt8.ofNat (i % 8)) = 0 then .ok false else allBits bits indexes

/-- `bits_contain`; to take the remainder by no bits is a panic. -/
def bitsContain (bits : List UInt8) (numBits k : ℕ) (data : List UInt8) : Except Fault Bool :=
  if numBits = 0 ∧ k ≠ 0 then .error .panic else allBits bits (probes numBits k data)

/-- `bits_might_contain_substr`, over the trigrams of a text. -/
def bitsContainAll (bits : List UInt8) (numBits k : ℕ) : List (List UInt8) → Except Fault Bool
  | [] => .ok true
  | item :: items => do
    let admitted ← bitsContain bits numBits k item
    if admitted then bitsContainAll bits numBits k items else .ok false

namespace BloomIndex

variable (index : BloomIndex)

/-- The bits of a filter. -/
def bloom (location : BloomLocation) : Except Fault (List UInt8) := do
  let stop ← addUsize location.offset location.len
  slice index.map location.offset stop

def contains (location : BloomLocation) (data : List UInt8) : Except Fault Bool := do
  let bits ← index.bloom location
  bitsContain bits location.numBits location.k data

/-- Whether the lines of a row group may have all trigrams of some texts. -/
def bloomPrune (rg : ℕ) (literals : List (List (List UInt8))) : Except Fault Bool :=
  match index.line[rg]? with
  | none => .error .panic
  | some location => do
    let bits ← index.bloom location
    let rec go : List (List (List UInt8)) → Except Fault Bool
      | [] => .ok true
      | trigrams :: literals => do
        let admitted ← bitsContainAll bits location.numBits location.k trigrams
        if admitted then go literals else .ok false
    go literals

/-- Whether a window may have a token. -/
def admits (token : List UInt8) : WindowLocation → Except Fault Bool
  | .absent => .ok false
  | .saturated => .ok true
  | .filter location => index.contains location token

/-- The windows from one on that may have a token, as bits after those of a mask. -/
def windowMask (token : List UInt8) : ℕ → ℕ → List WindowLocation → Except Fault ℕ
  | _, mask, [] => .ok mask
  | window, mask, bloom :: blooms => do
    let admitted ← index.admits token bloom
    if admitted then
      if 64 ≤ window then .error .panic else windowMask token (window + 1) (mask ||| 1 <<< window) blooms
    else windowMask token (window + 1) mask blooms

/-- The windows that may have a row on which a predicate holds, or `none` where the filters cannot
answer. -/
def predicateWindowMask (rg : ℕ) (p : Logql.ExactFieldPredicate) : Except Fault (Option ℕ) :=
  if p.value = "" then .ok none
  else
    match index.exactFields[rg]? with
    | none => .error .panic
    | some windows =>
      if windows = [] then .ok (some 0)
      else
        match encodeExactFieldToken p.name p.value with
        | none => .ok none
        | some token => some <$> index.windowMask token 0 0 windows

end BloomIndex

/-! ### No bytes are a panic -/

/-- The bits of a location lie in a section that starts at `base`, behind the header that says how
many they are. -/
structure BloomLocation.Within (buf : List UInt8) (base : ℕ) (location : BloomLocation) : Prop where
  pos : 0 < location.len
  numBits : location.numBits = 8 * location.len
  behind : base + bloomHeaderBytes ≤ location.offset
  inside : location.offset + location.len ≤ base + buf.length
  header : (buf.drop (location.offset - base - bloomHeaderBytes)).take bloomHeaderBytes =
    filterMagic ++ (leBytes 4 location.numBits ++ leBytes 4 location.k)

/-- A window without a filter, or with one in the section. -/
def WindowLocation.Within (buf : List UInt8) (base : ℕ) : WindowLocation → Prop
  | .filter location => location.Within buf base
  | _ => True

/-- Twelve bytes are a header, by their three words. -/
theorem take_header {buf : List UInt8} (hlen : bloomHeaderBytes ≤ buf.length)
    (hmagic : buf.take 4 = filterMagic) :
    buf.take bloomHeaderBytes = filterMagic ++
      (leBytes 4 (leNat ((buf.drop 4).take 4)) ++ leBytes 4 (leNat ((buf.drop 8).take 4))) := by
  have hword : ∀ start, start + 4 ≤ bloomHeaderBytes →
      leBytes 4 (leNat ((buf.drop start).take 4)) = (buf.drop start).take 4 := by
    intro start hstart
    have hlength : ((buf.drop start).take 4).length = 4 := by
      rw [List.length_take, List.length_drop]
      omega
    have hbytes := leBytes_leNat ((buf.drop start).take 4)
    rwa [hlength] at hbytes
  rw [hword 4 (by decide), hword 8 (by decide), ← hmagic]
  have hsplit : bloomHeaderBytes = 4 + (4 + 4) := rfl
  rw [hsplit, List.take_add, List.take_add, List.drop_drop]

theorem total_decodeBloomHeader (buf : List UInt8) :
    Total (fun r => r.1 ≠ 0 ∧ 8 ∣ r.1 ∧ r.1 < 2 ^ 32 ∧ buf.length = bloomHeaderBytes + r.1 / 8 ∧
      buf.take bloomHeaderBytes = filterMagic ++ (leBytes 4 r.1 ++ leBytes 4 r.2))
      (decodeBloomHeader buf) := by
  refine .ite (fun _ => trivial) fun hlen => ?_
  rw [bloomHeaderBytes, not_lt] at hlen
  refine .bind (total_slice ⟨by omega, by omega⟩) ?_
  rintro magic rfl
  refine .ite (fun _ => trivial) fun hmagic => ?_
  refine .bind (total_leNat_slice ⟨by omega, by omega⟩) ?_
  rintro numBits hnumBits
  refine .bind (total_leNat_slice ⟨by omega, by omega⟩) ?_
  rintro k hk
  refine .ite (fun _ => trivial) fun hvalid => .ite (fun _ => trivial) fun hexact => ?_
  have hlt := leNat_lt ((buf.drop 4).take 4)
  rw [@length_range buf 4 8 ⟨by omega, by omega⟩] at hlt
  rw [not_or, not_not] at hvalid
  rw [not_not] at hexact hmagic
  refine ⟨hvalid.1, hvalid.2, ?_, hexact, ?_⟩
  · rw [hnumBits]
    exact hlt
  · have := take_header hlen (by simpa using hmagic)
    rwa [← hnumBits, ← hk] at this

/-- The walk over a filter comes to no panic and stays in the section. -/
theorem total_locateLengthPrefixedBloom {buf : List UInt8} {base : ℕ}
    (hfits : base + buf.length < 2 ^ 63) (pos : ℕ) :
    Total (fun r => r.1.Within buf base ∧ r.2 ≤ buf.length)
      (locateLengthPrefixedBloom buf base pos) := by
  refine .bind (total_checkedAdd _ _ _) ?_
  rintro lengthEnd rfl
  refine .bind (.map (Q := fun _ => pos + 4 ≤ buf.length) (total_tryRange _ _ _ _)
    fun range h => h.2.1) fun len hlen => ?_
  refine .bind (total_checkedAdd _ _ _) ?_
  rintro payloadEnd rfl
  refine .bind (total_tryRange _ _ _ _) ?_
  rintro payload ⟨-, hinside, rfl⟩
  refine .bind (total_decodeBloomHeader _) ?_
  rintro ⟨numBits, k⟩ ⟨hne, ⟨bytes, rfl⟩, hlt, hexact, hheader⟩
  rw [length_range ⟨by omega, hinside⟩, Nat.add_sub_cancel_left,
    Nat.mul_div_cancel_left _ (by decide)] at hexact
  dsimp only at hheader
  refine .bind (total_addUsize (by rw [bloomHeaderBytes]; omega)) ?_
  rintro bitsStart rfl
  refine .bind (total_addUsize (by rw [bloomHeaderBytes]; omega)) ?_
  rintro absolute rfl
  refine .bind (total_tryU32 _ _) ?_
  rintro offset ⟨rfl, -⟩
  refine .bind (total_tryU32 _ _) ?_
  rintro bitsLen ⟨rfl, -⟩
  refine .bind (total_tryU32 _ _) ?_
  rintro count ⟨rfl, -⟩
  have hbits : pos + 4 + len - (pos + 4 + bloomHeaderBytes) = bytes := by omega
  refine ⟨⟨?_, ?_, ?_, ?_, ?_⟩, hinside⟩
  · dsimp only
    omega
  · dsimp only
    rw [hbits]
  · dsimp only
    omega
  · dsimp only
    omega
  · dsimp only
    have hstart : base + (pos + 4 + bloomHeaderBytes) - base - bloomHeaderBytes = pos + 4 := by omega
    rw [hstart, ← hheader, Nat.add_sub_cancel_left, List.take_take, Nat.min_eq_left (by omega)]

theorem total_locateWindowBloom {buf : List UInt8} {base pos : ℕ}
    (hfits : base + buf.length < 2 ^ 63) (hpos : pos ≤ buf.length) :
    Total (fun r => r.1.Within buf base ∧ r.2 ≤ buf.length) (locateWindowBloom buf base pos) := by
  refine .bind (total_addUsize (by omega)) ?_
  rintro stop rfl
  refine .ite (fun hzero => ⟨trivial, (getRange_eq_some hzero).2.1⟩) fun _ => ?_
  refine .ite (fun hsentinel => ⟨trivial, (getRange_eq_some hsentinel).2.1⟩) fun _ => ?_
  exact .bind (total_locateLengthPrefixedBloom hfits pos) fun r hr => hr

theorem total_locateWindows {buf : List UInt8} {base : ℕ} (hfits : base + buf.length < 2 ^ 63)
    (count : ℕ) {pos : ℕ} (hpos : pos ≤ buf.length) :
    Total (fun r => r.1.length = count ∧ (∀ window ∈ r.1, window.Within buf base) ∧
      r.2 ≤ buf.length) (locateWindows buf base count pos) := by
  induction count generalizing pos with
  | zero => exact ⟨rfl, fun _ h => absurd h List.not_mem_nil, hpos⟩
  | succ count ih =>
    refine .bind (total_locateWindowBloom hfits hpos) ?_
    rintro ⟨window, pos'⟩ ⟨hwindow, hpos'⟩
    refine .bind (ih hpos') ?_
    rintro ⟨windows, last⟩ ⟨hlength, hwindows, hlast⟩
    refine ⟨congrArg (· + 1) hlength, ?_, hlast⟩
    intro other hother
    rcases List.mem_cons.1 hother with rfl | hother
    · exact hwindow
    · exact hwindows other hother

/-- A filter of lines in the section, and at most as many windows as a mask has bits. -/
def GroupWithin (buf : List UInt8) (base : ℕ) (located : BloomLocation × List WindowLocation) :
    Prop :=
  located.1.Within buf base ∧ located.2.length ≤ 64 ∧ ∀ window ∈ located.2, window.Within buf base

theorem total_locateGroup {buf : List UInt8} {base : ℕ} (hfits : base + buf.length < 2 ^ 63)
    (group rows pos : ℕ) :
    Total (fun r => GroupWithin buf base r.1 ∧ r.2 ≤ buf.length)
      (locateGroup buf base group rows pos) := by
  refine .bind (total_locateLengthPrefixedBloom hfits pos) ?_
  rintro ⟨line, pos'⟩ ⟨hline, -⟩
  refine .bind (total_checkedAdd _ _ _) ?_
  rintro stop rfl
  refine .bind (.map (Q := fun _ => pos' + 4 ≤ buf.length) (total_tryRange _ _ _ _)
    fun range h => h.2.1) fun windowCount hstop => ?_
  refine .ite (fun _ => trivial) fun _ => .ite (fun _ => trivial) fun hmany => ?_
  refine .bind (total_locateWindows hfits windowCount hstop) ?_
  rintro ⟨windows, last⟩ ⟨hlength, hwindows, hlast⟩
  exact ⟨⟨hline, by dsimp only at hlength ⊢; omega, hwindows⟩, hlast⟩

theorem total_locateGroups {buf : List UInt8} {base : ℕ} (hfits : base + buf.length < 2 ^ 63)
    (rowGroupRows : List ℕ) (group pos : ℕ) :
    Total (fun r => r.1.length = rowGroupRows.length ∧ ∀ located ∈ r.1, GroupWithin buf base located)
      (locateGroups buf base group rowGroupRows pos) := by
  induction rowGroupRows generalizing group pos with
  | nil => exact ⟨rfl, fun _ h => absurd h List.not_mem_nil⟩
  | cons rows rowGroupRows ih =>
    refine .bind (total_locateGroup hfits group rows pos) ?_
    rintro ⟨located, pos'⟩ ⟨hlocated, -⟩
    refine .bind (ih (group + 1) pos') ?_
    rintro ⟨rest, last⟩ ⟨hlength, hrest⟩
    refine ⟨congrArg (· + 1) hlength, ?_⟩
    intro other hother
    rcases List.mem_cons.1 hother with rfl | hother
    · exact hlocated
    · exact hrest other hother

/-- **The walk over any bytes returns**, and all locations it records are in the section. -/
theorem total_locateBlooms {buf : List UInt8} {base : ℕ} (hfits : base + buf.length < 2 ^ 63)
    (rowGroupRows : List ℕ) :
    Total (fun r => r.1.length = rowGroupRows.length ∧ r.2.length = rowGroupRows.length ∧
      (∀ location ∈ r.1, location.Within buf base) ∧
      ∀ windows ∈ r.2, windows.length ≤ 64 ∧ ∀ window ∈ windows, window.Within buf base)
      (locateBlooms buf base rowGroupRows) := by
  refine .ite (fun _ => trivial) fun hlen => ?_
  rw [not_lt] at hlen
  refine .bind (total_slice ⟨by omega, by omega⟩) fun magic _ => .ite (fun _ => trivial) fun _ => ?_
  refine .bind (total_leNat_slice ⟨by omega, by omega⟩) fun count _ => ?_
  refine .ite (fun _ => trivial) fun _ => ?_
  refine .bind (total_locateGroups hfits rowGroupRows 0 8) ?_
  rintro ⟨located, pos⟩ ⟨hlength, hlocated⟩
  refine .ite (fun _ => trivial) fun _ => ?_
  refine ⟨by rwa [List.length_map], by rwa [List.length_map], ?_, ?_⟩
  · intro location hlocation
    obtain ⟨group, hgroup, rfl⟩ := List.mem_map.1 hlocation
    exact (hlocated group hgroup).1
  · intro windows hwindows
    obtain ⟨group, hgroup, rfl⟩ := List.mem_map.1 hwindows
    exact (hlocated group hgroup).2

/-- A location in the section of a file is a location in the file. -/
theorem BloomLocation.Within.file {head buf tail : List UInt8} {location : BloomLocation}
    (h : location.Within buf head.length) : location.Within (head ++ (buf ++ tail)) 0 := by
  have hbehind := h.behind
  have hinside := h.inside
  refine ⟨h.pos, h.numBits, by omega, by simp; omega, ?_⟩
  rw [← h.header]
  have hstart : location.offset - 0 - bloomHeaderBytes =
      head.length + (location.offset - head.length - bloomHeaderBytes) := by omega
  rw [hstart, ← List.drop_drop, List.drop_left, List.drop_append_of_le_length (by omega),
    List.take_append_of_le_length (by rw [List.length_drop]; omega)]

/-- The section of a file is behind nine bytes of it. -/
theorem total_splitIndex (buf : List UInt8) :
    Total (fun section' => ∃ head tail, buf = head ++ (section' ++ tail) ∧
      head.length = indexMagic.length + 4) (splitIndex buf) := by
  refine .ite (fun _ => trivial) fun hmagic => ?_
  rw [not_not] at hmagic
  have hlen : indexMagic.length ≤ buf.length := by
    have := congrArg List.length hmagic
    rw [List.length_take] at this
    omega
  refine .bind (total_slice ⟨hlen, le_rfl⟩) ?_
  rintro rest rfl
  rw [List.take_of_length_le (by rw [List.length_drop])]
  refine .ite (fun _ => trivial) fun hlong => ?_
  rw [not_lt, List.length_drop] at hlong
  refine .bind (total_leNat_slice ⟨by omega, by rw [List.length_drop]; omega⟩) fun length _ => ?_
  refine .bind (total_slice ⟨by rw [List.length_drop]; omega, le_rfl⟩) ?_
  rintro rest rfl
  rw [List.take_of_length_le (by rw [List.length_drop]), List.drop_drop]
  refine .ite (fun _ => trivial) fun hlength => ?_
  rw [not_lt] at hlength
  refine (total_slice ⟨Nat.zero_le _, hlength⟩).mono ?_
  rintro section' rfl
  refine ⟨buf.take (indexMagic.length + 4), (buf.drop (indexMagic.length + 4)).drop length, ?_, ?_⟩
  · rw [List.drop_zero, Nat.sub_zero, List.take_append_drop, List.take_append_drop]
  · rw [List.length_take]
    omega

/-! ### Lookups return -/

theorem returns_allBits {bits : List UInt8} {indexes : List ℕ} (h : ∀ i ∈ indexes, i / 8 < bits.length) :
    Returns (allBits bits indexes) := by
  induction indexes with
  | nil => exact .ok _
  | cons i indexes ih =>
    have hbyte := byteAt_of_getElem? (List.getElem?_eq_getElem (h i List.mem_cons_self))
    rw [allBits, hbyte]
    exact .ite (fun _ => .ok _) fun _ => ih fun j hj => h j (List.mem_cons_of_mem _ hj)

theorem returns_bitsContain {bits : List UInt8} {numBits : ℕ} (hpos : 0 < numBits)
    (hbits : numBits = 8 * bits.length) (k : ℕ) (data : List UInt8) :
    Returns (bitsContain bits numBits k data) := by
  rw [bitsContain, if_neg fun h => hpos.ne' h.1]
  refine returns_allBits fun i hi => ?_
  have := lt_of_mem_probes hpos hi
  omega

theorem returns_bitsContainAll {bits : List UInt8} {numBits : ℕ} (hpos : 0 < numBits)
    (hbits : numBits = 8 * bits.length) (k : ℕ) (items : List (List UInt8)) :
    Returns (bitsContainAll bits numBits k items) := by
  induction items with
  | nil => exact .ok _
  | cons item items ih =>
    exact .bind (returns_bitsContain hpos hbits k item) fun _ => .ite (fun _ => ih) fun _ => .ok _

namespace BloomIndex

/-- All locations of an index are in its file, which is no longer than any slice. -/
structure Sound (index : BloomIndex) : Prop where
  fits : index.map.length < 2 ^ 63
  line : ∀ location ∈ index.line, location.Within index.map 0
  exactFields : ∀ windows ∈ index.exactFields,
    windows.length ≤ 64 ∧ ∀ window ∈ windows, window.Within index.map 0

/-- The file of an index and the number of its row groups. -/
def Of (map : List UInt8) (groups : ℕ) (index : BloomIndex) : Prop :=
  index.map = map ∧ index.line.length = groups ∧ index.exactFields.length = groups

variable {index : BloomIndex}

/-- **The index of any file.** -/
theorem total_buildBloomIndex {map : List UInt8} (hfits : map.length < 2 ^ 63)
    (rowGroupRows : List ℕ) :
    Total (fun index => index.Sound ∧ index.Of map rowGroupRows.length)
      (buildBloomIndex map rowGroupRows) := by
  refine .bind (P := (· = indexMagic.length + 4)) (.ite (fun _ => trivial) fun _ => rfl) ?_
  rintro base rfl
  refine .bind (total_splitIndex map) ?_
  rintro bloom ⟨head, tail, rfl, hhead⟩
  rw [← hhead]
  refine .bind (total_locateBlooms (by simp at hfits; omega) rowGroupRows) ?_
  rintro ⟨line, exactFields⟩ ⟨hline, hexact, hlines, hwindows⟩
  refine ⟨⟨hfits, fun location h => (hlines location h).file, fun windows h => ?_⟩, rfl, hline, hexact⟩
  obtain ⟨hmany, hall⟩ := hwindows windows h
  refine ⟨hmany, fun window hwindow => ?_⟩
  cases window with
  | filter location => exact (hall _ hwindow : location.Within _ _).file
  | _ => trivial

/-- The bits of a location, as many as its header says. -/
theorem bloom_of_within (hfits : index.map.length < 2 ^ 63) {location : BloomLocation}
    (h : location.Within index.map 0) :
    index.bloom location = .ok ((index.map.drop location.offset).take location.len) ∧
      location.numBits = 8 * ((index.map.drop location.offset).take location.len).length := by
  have hinside := h.inside
  rw [Nat.zero_add] at hinside
  have hle : location.offset ≤ location.offset + location.len ∧
      location.offset + location.len ≤ index.map.length := ⟨by omega, hinside⟩
  have hbits := length_range hle
  have hslice := slice_of_le hle
  rw [Nat.add_sub_cancel_left] at hbits hslice
  rw [hbits]
  refine ⟨?_, h.numBits⟩
  rw [bloom, addUsize_of_lt (by omega)]
  exact hslice

theorem returns_contains (hfits : index.map.length < 2 ^ 63) {location : BloomLocation}
    (h : location.Within index.map 0) (data : List UInt8) :
    Returns (index.contains location data) := by
  obtain ⟨hbloom, hbits⟩ := bloom_of_within hfits h
  rw [contains, hbloom]
  have hpos := h.pos
  have hnum := h.numBits
  exact returns_bitsContain (by omega) hbits location.k data

theorem returns_bloomPrune (h : index.Sound) {rg : ℕ} (hrg : rg < index.line.length)
    (literals : List (List (List UInt8))) :
    Returns (index.bloomPrune rg literals) := by
  have hwithin := h.line _ (List.getElem_mem hrg)
  obtain ⟨hbloom, hbits⟩ := bloom_of_within h.fits hwithin
  rw [bloomPrune, List.getElem?_eq_getElem hrg]
  dsimp only
  rw [hbloom]
  have hpos := hwithin.pos
  have hnum := hwithin.numBits
  change Returns (bloomPrune.go _ _ literals)
  induction literals with
  | nil => exact .ok _
  | cons trigrams literals ih =>
    exact .bind (returns_bitsContainAll (by omega) hbits _ trigrams) fun _ =>
      .ite (fun _ => ih) fun _ => .ok _

theorem returns_windowMask (hfits : index.map.length < 2 ^ 63) (token : List UInt8)
    {windows : List WindowLocation} (hall : ∀ window ∈ windows, window.Within index.map 0)
    {window : ℕ} (hmany : window + windows.length ≤ 64) (mask : ℕ) :
    Returns (index.windowMask token window mask windows) := by
  induction windows generalizing window mask with
  | nil => exact .ok _
  | cons bloom windows ih =>
    rw [List.length_cons] at hmany
    have hrest : ∀ mask, Returns (index.windowMask token (window + 1) mask windows) :=
      ih (fun window h => hall window (List.mem_cons_of_mem _ h)) (by omega)
    have hadmits : Returns (index.admits token bloom) := by
      cases bloom with
      | filter location => exact returns_contains hfits (hall _ List.mem_cons_self) token
      | _ => exact .ok _
    refine .bind hadmits fun _ => .ite (fun _ => ?_) fun _ => hrest mask
    rw [if_neg (by omega)]
    exact hrest _

theorem returns_predicateWindowMask (h : index.Sound) {rg : ℕ} (hrg : rg < index.exactFields.length)
    (p : Logql.ExactFieldPredicate) :
    Returns (index.predicateWindowMask rg p) := by
  obtain ⟨hmany, hall⟩ := h.exactFields _ (List.getElem_mem hrg)
  refine .ite (fun _ => .ok _) fun _ => ?_
  rw [List.getElem?_eq_getElem hrg]
  refine .ite (fun _ => .ok _) fun _ => ?_
  cases encodeExactFieldToken p.name p.value with
  | none => exact .ok _
  | some token =>
    exact .map (returns_windowMask h.fits token hall (by omega) 0)

end BloomIndex

/-! ### What was written is found -/

/-- A filter that its header can describe. -/
structure BloomFilter.Storable (filter : BloomFilter) : Prop where
  large : 1024 ≤ filter.numBits
  whole : 8 ∣ filter.numBits
  length : filter.bits.length = filter.numBits
  numBits : filter.numBits < 2 ^ 32
  k : filter.k < 2 ^ 32

/-- The location of a filter in a section that starts at `base`. -/
structure BloomLocation.Finds (buf : List UInt8) (base : ℕ) (filter : BloomFilter)
    (location : BloomLocation) : Prop where
  numBits : location.numBits = filter.numBits
  k : location.k = filter.k
  len : location.len = (packBits filter.bits).length
  bits : ∃ start, location.offset = base + start ∧ At buf start (packBits filter.bits)

/-- What is known of a window is what was written of it. -/
inductive WindowLocation.Finds (buf : List UInt8) (base : ℕ) : WindowBloom → WindowLocation → Prop
  | absent : Finds buf base .absent .absent
  | saturated : Finds buf base .saturated .saturated
  | filter {bloom : BloomFilter} {location : BloomLocation} (h : location.Finds buf base bloom) :
    Finds buf base (.filter bloom) (.filter location)

/-- The number that four bytes at a position spell. -/
theorem leNat_four {n : ℕ} (h : n < 2 ^ 32) : leNat (leBytes 4 n) = n :=
  leNat_leBytes (by norm_num; omega)

namespace BloomFilter

variable {filter : BloomFilter}

@[simp] theorem length_header (filter : BloomFilter) : filter.header.length = bloomHeaderBytes := by
  simp [header, filterMagic, bloomHeaderBytes]

theorem Storable.length_packBits (h : filter.Storable) :
    (packBits filter.bits).length = filter.numBits / 8 := by
  rw [Bytes.length_packBits, h.length]

theorem Storable.length_encode (h : filter.Storable) :
    filter.encode.length = bloomHeaderBytes + filter.numBits / 8 := by
  rw [encode, List.length_append, length_header, h.length_packBits]

theorem decodeBloomHeader_encode (h : filter.Storable) :
    decodeBloomHeader filter.encode = .ok (filter.numBits, filter.k) := by
  have hlength := h.length_encode
  have hlarge := h.large
  have hpos : ¬ (filter.numBits = 0 ∨ ¬ 8 ∣ filter.numBits) := by
    rw [not_or, not_not]
    exact ⟨by omega, h.whole⟩
  have hheader : At filter.encode 0 filter.header := at_zero _ _
  have hmagic : slice filter.encode 0 4 = .ok filterMagic := hheader.left.slice_eq
  have hnumBits : slice filter.encode 4 8 = .ok (leBytes 4 filter.numBits) :=
    hheader.right.left.slice_eq
  have hk : slice filter.encode 8 12 = .ok (leBytes 4 filter.k) := hheader.right.right.slice_eq
  rw [decodeBloomHeader, if_neg (by omega), hmagic, hnumBits, hk]
  simp only [bind, Except.bind, Functor.map, Except.map, ne_eq, not_true_eq_false, ↓reduceIte]
  rw [leNat_four h.numBits, leNat_four h.k, if_neg hpos, if_neg (by rw [hlength]; simp)]

end BloomFilter

section

variable {buf : List UInt8} {base pos : ℕ}

/-- **A filter that was written is found**, in a section of less than 4 GiB. -/
theorem locateLengthPrefixedBloom_encode (hbase : base ≤ 128) (hfits : buf.length < 2 ^ 32)
    {filter : BloomFilter} (h : filter.Storable) (hat : At buf pos (lengthPrefixed filter.encode)) :
    ∃ location, location.Finds buf base filter ∧ locateLengthPrefixedBloom buf base pos =
      .ok (location, pos + (lengthPrefixed filter.encode).length) := by
  have hle := hat.le
  have hlarge := h.large
  have hlt := h.numBits
  have hlength := h.length_encode
  have hat : At buf pos (leBytes 4 filter.encode.length ++ filter.encode) := hat
  have hprefixed : (lengthPrefixed filter.encode).length = 4 + filter.encode.length := by
    rw [lengthPrefixed, List.length_append, length_leBytes]
  have hfour : tryRange "bloom length truncated" buf pos (pos + 4) =
      .ok (leBytes 4 filter.encode.length) := by
    have := hat.left.tryRange_eq "bloom length truncated"
    rwa [length_leBytes] at this
  have hright := hat.right
  rw [length_leBytes] at hright
  have hpayload := hright.tryRange_eq "bloom payload truncated"
  have hbits : At buf (pos + 4 + bloomHeaderBytes) (packBits filter.bits) := by
    have := hright.right
    rwa [BloomFilter.length_header] at this
  rw [bloomHeaderBytes] at hlength hbits
  have hcount : pos + 4 + filter.encode.length - (pos + 4 + 12) = filter.numBits / 8 := by omega
  refine ⟨⟨base + (pos + 4 + 12), filter.numBits / 8, filter.numBits, filter.k⟩,
    ⟨rfl, rfl, h.length_packBits.symm, pos + 4 + 12, rfl, hbits⟩, ?_⟩
  have hnext : pos + (lengthPrefixed filter.encode).length = pos + 4 + filter.encode.length := by
    omega
  have hstart : pos + 4 < 2 ^ 64 := by omega
  have hend : pos + 4 + filter.encode.length < 2 ^ 64 := by omega
  have hfirst : pos + 4 + 12 < 2 ^ 64 := by omega
  have habsolute : base + (pos + 4 + 12) < 2 ^ 64 := by omega
  have hsmall : base + (pos + 4 + 12) < 2 ^ 32 := by omega
  have hbytes : filter.numBits / 8 < 2 ^ 32 := by omega
  have hlen : filter.encode.length < 2 ^ 32 := by omega
  simp only [locateLengthPrefixedBloom, checkedAdd_of_lt _ hstart, hfour, leNat_four hlen,
    checkedAdd_of_lt _ hend, hpayload, BloomFilter.decodeBloomHeader_encode h, bloomHeaderBytes,
    addUsize_of_lt hfirst, addUsize_of_lt habsolute, tryU32_of_lt _ hsmall, hcount,
    tryU32_of_lt _ hbytes, tryU32_of_lt _ hlt, hnext, bind, Except.bind, Functor.map, Except.map]

/-- A window that was written: a filter is neither of the two lengths that stand for none. -/
theorem locateWindowBloom_encode (hbase : base ≤ 128) (hfits : buf.length < 2 ^ 32)
    {window : WindowBloom} (h : ∀ filter, window = .filter filter → filter.Storable)
    (hat : At buf pos window.encode) :
    ∃ location, WindowLocation.Finds buf base window location ∧
      locateWindowBloom buf base pos = .ok (location, pos + window.encode.length) := by
  have hle := hat.le
  have hzero : leBytes 4 0 = [0, 0, 0, 0] := by decide
  have hstop : ∀ n, At buf pos (leBytes 4 n) →
      addUsize pos 4 = .ok (pos + 4) ∧ getRange buf pos (pos + 4) = some (leBytes 4 n) := by
    intro n hn
    have hle := hn.le
    have hrange := hn.getRange_eq
    rw [length_leBytes] at hle hrange
    exact ⟨addUsize_of_lt (by omega), hrange⟩
  have hinj : ∀ {m n}, m < 2 ^ 32 → n < 2 ^ 32 → leBytes 4 m = leBytes 4 n → m = n := by
    intro m n hm hn heq
    rw [← leNat_four hm, heq, leNat_four hn]
  cases window with
  | absent =>
    obtain ⟨hadd, hrange⟩ := hstop 0 hat
    refine ⟨.absent, .absent, ?_⟩
    simp only [locateWindowBloom, hadd, hrange, hzero, ↓reduceIte, bind, Except.bind,
      WindowBloom.encode, List.length_cons, List.length_nil]
  | saturated =>
    obtain ⟨hadd, hrange⟩ := hstop saturatedWindowSentinel hat
    have hne : leBytes 4 saturatedWindowSentinel ≠ [0, 0, 0, 0] := by decide
    refine ⟨.saturated, .saturated, ?_⟩
    simp only [locateWindowBloom, hadd, hrange, Option.some.injEq, hne, ↓reduceIte, bind,
      Except.bind, WindowBloom.encode, length_leBytes]
  | filter filter =>
    have hstorable := h filter rfl
    have hlarge := hstorable.large
    have hlt := hstorable.numBits
    have hlength := hstorable.length_encode
    rw [bloomHeaderBytes] at hlength
    obtain ⟨hadd, hrange⟩ := hstop filter.encode.length
      (@At.left _ _ _ filter.encode hat)
    obtain ⟨location, hfinds, hlocate⟩ :=
      locateLengthPrefixedBloom_encode hbase hfits hstorable hat
    have hsome : leBytes 4 filter.encode.length ≠ [0, 0, 0, 0] := by
      rw [← hzero]
      intro heq
      have := hinj (by omega) (by omega) heq
      omega
    have hunsaturated : leBytes 4 filter.encode.length ≠ leBytes 4 saturatedWindowSentinel := by
      intro heq
      have := hinj (by omega) (by decide) heq
      rw [saturatedWindowSentinel] at this
      omega
    refine ⟨.filter location, .filter hfinds, ?_⟩
    simp only [locateWindowBloom, hadd, hrange, Option.some.injEq, hsome, hunsaturated, ↓reduceIte,
      hlocate, bind, Except.bind, WindowBloom.encode]

theorem locateWindows_encode (hbase : base ≤ 128) (hfits : buf.length < 2 ^ 32)
    {windows : List WindowBloom} (h : ∀ filter, .filter filter ∈ windows → filter.Storable)
    (hat : At buf pos (windows.flatMap WindowBloom.encode)) :
    ∃ locations, List.Forall₂ (WindowLocation.Finds buf base) windows locations ∧
      locateWindows buf base windows.length pos =
        .ok (locations, pos + (windows.flatMap WindowBloom.encode).length) := by
  induction windows generalizing pos with
  | nil => exact ⟨[], .nil, rfl⟩
  | cons window windows ih =>
    obtain ⟨location, hfinds, hlocate⟩ := locateWindowBloom_encode hbase hfits
      (fun filter heq => h filter (heq ▸ List.mem_cons_self)) hat.left
    obtain ⟨locations, hrest, hlocateRest⟩ :=
      ih (fun filter hmem => h filter (List.mem_cons_of_mem _ hmem)) hat.right
    refine ⟨location :: locations, .cons hfinds hrest, ?_⟩
    simp only [List.length_cons, locateWindows, hlocate, hlocateRest, bind, Except.bind,
      List.flatMap_cons, List.length_append, Nat.add_assoc]

/-- The filters of a row group of so many rows, as a writer makes them. -/
structure GroupBlooms.Storable (rows : ℕ) (blooms : GroupBlooms) : Prop where
  line : blooms.line.Storable
  windows : ∀ filter, .filter filter ∈ blooms.exactFields → filter.Storable
  count : blooms.exactFields.length = 0 ∨
    blooms.exactFields.length = (rows + bloomWindowRows - 1) / bloomWindowRows
  most : blooms.exactFields.length ≤ 64

/-- The locations of the filters of a group. -/
def GroupBlooms.Found (buf : List UInt8) (base : ℕ) (blooms : GroupBlooms)
    (located : BloomLocation × List WindowLocation) : Prop :=
  located.1.Finds buf base blooms.line ∧
    List.Forall₂ (WindowLocation.Finds buf base) blooms.exactFields located.2

theorem locateGroup_encode (hbase : base ≤ 128) (hfits : buf.length < 2 ^ 32) {rows : ℕ}
    {blooms : GroupBlooms} (h : blooms.Storable rows) (group : ℕ) (hat : At buf pos blooms.encode) :
    ∃ located, blooms.Found buf base located ∧
      locateGroup buf base group rows pos = .ok (located, pos + blooms.encode.length) := by
  have hmost := h.most
  obtain ⟨line, hline, hlocate⟩ := locateLengthPrefixedBloom_encode hbase hfits h.line hat.left
  have hright := hat.right
  have hcount := hright.left
  have hle := hcount.le
  have hrange := hcount.tryRange_eq "bloom window count truncated"
  have hwindows := hright.right
  rw [length_leBytes] at hle hrange hwindows
  obtain ⟨windows, hfound, hlocateWindows⟩ := locateWindows_encode hbase hfits h.windows hwindows
  have hadd : pos + (lengthPrefixed blooms.line.encode).length + 4 < 2 ^ 64 := by omega
  have hexpected : ¬ (blooms.exactFields.length ≠ 0 ∧
      blooms.exactFields.length ≠ (rows + bloomWindowRows - 1) / bloomWindowRows) := by
    rw [not_and_or, not_not, not_not]
    exact h.count
  have hfew : ¬ 64 < blooms.exactFields.length := not_lt.2 hmost
  have hnumber : leNat (leBytes 4 blooms.exactFields.length) = blooms.exactFields.length :=
    leNat_four (by omega)
  have hnext : pos + blooms.encode.length = pos + (lengthPrefixed blooms.line.encode).length + 4 +
      (blooms.exactFields.flatMap WindowBloom.encode).length := by
    rw [GroupBlooms.encode, List.length_append, List.length_append, length_leBytes]
    omega
  refine ⟨(line, windows), ⟨hline, hfound⟩, ?_⟩
  simp only [locateGroup, hlocate, checkedAdd_of_lt _ hadd, hrange, hnumber, hexpected, hfew,
    ↓reduceIte, hlocateWindows, hnext, bind, Except.bind, Functor.map, Except.map]

theorem locateGroups_encode (hbase : base ≤ 128) (hfits : buf.length < 2 ^ 32)
    {rowGroupRows : List ℕ} {groups : List GroupBlooms}
    (h : List.Forall₂ GroupBlooms.Storable rowGroupRows groups) (group : ℕ)
    (hat : At buf pos (groups.flatMap GroupBlooms.encode)) :
    ∃ located, List.Forall₂ (GroupBlooms.Found buf base) groups located ∧
      locateGroups buf base group rowGroupRows pos =
        .ok (located, pos + (groups.flatMap GroupBlooms.encode).length) := by
  induction h generalizing group pos with
  | nil => exact ⟨[], .nil, rfl⟩
  | cons hfirst _ ih =>
    obtain ⟨first, hfound, hlocate⟩ := locateGroup_encode hbase hfits hfirst group hat.left
    obtain ⟨rest, hrest, hlocateRest⟩ := ih (group + 1) hat.right
    refine ⟨first :: rest, .cons hfound hrest, ?_⟩
    simp only [locateGroups, hlocate, hlocateRest, bind, Except.bind, List.flatMap_cons,
      List.length_append, Nat.add_assoc]

/-- **The section of a writer is accepted**, with the locations of its filters. -/
theorem locateBlooms_encode (hbase : base ≤ 128) {groups : List GroupBlooms}
    (hfits : (encodeBlooms groups).length < 2 ^ 32) {rowGroupRows : List ℕ}
    (h : List.Forall₂ GroupBlooms.Storable rowGroupRows groups) :
    ∃ located, List.Forall₂ (GroupBlooms.Found (encodeBlooms groups) base) groups located ∧
      locateBlooms (encodeBlooms groups) base rowGroupRows =
        .ok (located.map Prod.fst, located.map Prod.snd) := by
  have hlength : (encodeBlooms groups).length =
      8 + (groups.flatMap GroupBlooms.encode).length := by
    rw [encodeBlooms, List.length_append, List.length_append, length_leBytes, bloomMagic]
    simp only [List.length_cons, List.length_nil]
    omega
  have hcount : groups.length ≤ (groups.flatMap GroupBlooms.encode).length := by
    clear h hfits hlength
    induction groups with
    | nil => exact le_rfl
    | cons blooms groups ih =>
      have : 4 ≤ blooms.encode.length := by
        rw [GroupBlooms.encode, lengthPrefixed]
        simp
      rw [List.flatMap_cons, List.length_append, List.length_cons]
      omega
  have hmagic : slice (encodeBlooms groups) 0 4 = .ok bloomMagic :=
    (at_zero bloomMagic (leBytes 4 groups.length ++ groups.flatMap GroupBlooms.encode)).slice_eq
  have hright : At (encodeBlooms groups) 4
      (leBytes 4 groups.length ++ groups.flatMap GroupBlooms.encode) :=
    (at_self (encodeBlooms groups)).right
  have hnumber : slice (encodeBlooms groups) 4 8 = .ok (leBytes 4 groups.length) := by
    have := hright.left.slice_eq
    rwa [length_leBytes] at this
  obtain ⟨located, hfound, hlocate⟩ :=
    locateGroups_encode hbase hfits h 0 (by simpa using hright.right)
  have hshort : ¬ (encodeBlooms groups).length < 8 := by omega
  have hgroups : leNat (leBytes 4 groups.length) = groups.length := leNat_four (by omega)
  refine ⟨located, hfound, ?_⟩
  simp only [locateBlooms, hshort, hmagic, hnumber, hgroups, h.length_eq, hlocate, ← hlength,
    ↓reduceIte, bind, Except.bind, Functor.map, Except.map, ne_eq, not_true_eq_false]

end

/-- The section of a file that was written. -/
theorem splitIndex_write {bloom map : List UInt8} (h : writeIndexSections bloom = some map) :
    bloom.length < 2 ^ 32 ∧ map.length = 9 + bloom.length ∧ At map 9 bloom ∧
      indexBloomOffset map = .ok 9 ∧ splitIndex map = .ok bloom := by
  rw [writeIndexSections] at h
  split at h
  case isFalse => cases h
  case isTrue hlt =>
    obtain rfl := Option.some.inj h
    have hlength : (indexMagic ++ lengthPrefixed bloom).length = 9 + bloom.length := by
      rw [lengthPrefixed, List.length_append, List.length_append, length_leBytes, indexMagic]
      simp only [List.length_cons, List.length_nil]
      omega
    have hsection : At (indexMagic ++ lengthPrefixed bloom) 5 (lengthPrefixed bloom) :=
      (at_self (indexMagic ++ lengthPrefixed bloom)).right
    have hmagic : (indexMagic ++ lengthPrefixed bloom).take indexMagic.length = indexMagic :=
      List.take_left
    have hrest : slice (indexMagic ++ lengthPrefixed bloom) indexMagic.length
        (indexMagic ++ lengthPrefixed bloom).length = .ok (lengthPrefixed bloom) := by
      rw [slice_of_le ⟨by simp, le_rfl⟩, List.drop_left, List.length_append,
        Nat.add_sub_cancel_left, List.take_of_length_le le_rfl]
    have hprefixed : (lengthPrefixed bloom).length = 4 + bloom.length := by
      rw [lengthPrefixed, List.length_append, length_leBytes]
    have hnumber : slice (lengthPrefixed bloom) 0 4 = .ok (leBytes 4 bloom.length) := by
      have := (at_zero (leBytes 4 bloom.length) bloom).slice_eq
      rwa [length_leBytes] at this
    have hbloom : At (lengthPrefixed bloom) 4 bloom := by
      have := (at_self (lengthPrefixed bloom)).right
      rwa [length_leBytes, Nat.zero_add] at this
    have htail : slice (lengthPrefixed bloom) 4 (lengthPrefixed bloom).length = .ok bloom := by
      rw [hprefixed]
      exact hbloom.slice_eq
    have hall : slice bloom 0 bloom.length = .ok bloom := by
      simpa using (at_self bloom).slice_eq
    have hlong : ¬ (lengthPrefixed bloom).length < 4 := by omega
    refine ⟨hlt, hlength, hbloom.within hsection, ?_, ?_⟩
    · rw [indexBloomOffset, if_neg (by rw [hlength, indexMagic]; simp)]
      rfl
    · simp only [splitIndex, hmagic, hrest, hlong, hnumber, leNat_four hlt, htail, lt_irrefl, hall,
        ne_eq, not_true_eq_false, ↓reduceIte, bind, Except.bind, Functor.map, Except.map]

/-! ### Filters in bytes answer as filters of bits -/

theorem allBits_packBits {bits : List Bool} (hbytes : 8 ∣ bits.length) {indexes : List ℕ}
    (h : ∀ i ∈ indexes, i < bits.length) :
    allBits (packBits bits) indexes = .ok (indexes.all fun i => bits.getD i false) := by
  induction indexes with
  | nil => rfl
  | cons i indexes ih =>
    have hi := h i List.mem_cons_self
    obtain ⟨byte, hbyte, hbit⟩ := @land_packBits bits i (by omega)
    rw [allBits, byteAt_of_getElem? hbyte, List.all_cons, ih fun j hj => h j (List.mem_cons_of_mem _ hj)]
    simp only [bind, Except.bind]
    by_cases hzero : bits.getD i false = false
    · rw [if_pos (hbit.2 hzero), hzero, Bool.false_and]
    · rw [if_neg fun hland => hzero (hbit.1 hland), Bool.eq_true_of_not_eq_false hzero,
        Bool.true_and]

namespace BloomFilter

variable {filter : BloomFilter}

theorem Storable.bitsContain_packBits (h : filter.Storable) (data : List UInt8) :
    bitsContain (packBits filter.bits) filter.numBits filter.k data = .ok (filter.contains data) := by
  have hlarge := h.large
  have hlength := h.length
  rw [bitsContain, if_neg (by omega), allBits_packBits (by rw [hlength]; exact h.whole) fun i hi => ?_]
  · rfl
  · rw [hlength]
    exact lt_of_mem_probes (by omega) hi

end BloomFilter

namespace BloomIndex

/-- The bits of a filter are at a location, and lookups there answer as the filter does. -/
structure Holds (index : BloomIndex) (filter : BloomFilter) (location : BloomLocation) : Prop where
  bloom : index.bloom location = .ok (packBits filter.bits)
  numBits : location.numBits = filter.numBits
  k : location.k = filter.k
  contains : ∀ data, index.contains location data = .ok (filter.contains data)

/-- A window is exactly as it was written. -/
inductive HoldsWindow (index : BloomIndex) : WindowBloom → WindowLocation → Prop
  | absent : HoldsWindow index .absent .absent
  | saturated : HoldsWindow index .saturated .saturated
  | filter {bloom : BloomFilter} {location : BloomLocation} (h : index.Holds bloom location) :
    HoldsWindow index (.filter bloom) (.filter location)

/-- An index of the filters of some row groups. -/
structure Serves (index : BloomIndex) (groups : List GroupBlooms) : Prop where
  line : List.Forall₂ (fun blooms location => index.Holds blooms.line location) groups index.line
  windows : List.Forall₂ (fun blooms windows =>
    List.Forall₂ index.HoldsWindow blooms.exactFields windows) groups index.exactFields

variable {index : BloomIndex}

theorem holds_of_finds {buf : List UInt8} {base : ℕ} (hin : At index.map base buf)
    (hfits : index.map.length < 2 ^ 63) {filter : BloomFilter} (h : filter.Storable)
    {location : BloomLocation} (hfinds : location.Finds buf base filter) :
    index.Holds filter location := by
  obtain ⟨hnumBits, hk, hlen, start, hoffset, hat⟩ := hfinds
  have hbits := hat.within hin
  have hle := hbits.le
  have hbloom : index.bloom location = .ok (packBits filter.bits) := by
    rw [bloom, hoffset, hlen, addUsize_of_lt (by omega)]
    exact hbits.slice_eq
  refine ⟨hbloom, hnumBits, hk, fun data => ?_⟩
  rw [contains, hbloom, hnumBits, hk]
  exact h.bitsContain_packBits data

theorem holdsWindow_of_finds {buf : List UInt8} {base : ℕ} (hin : At index.map base buf)
    (hfits : index.map.length < 2 ^ 63) {windows : List WindowBloom}
    (h : ∀ filter, .filter filter ∈ windows → BloomFilter.Storable filter)
    {locations : List WindowLocation}
    (hfinds : List.Forall₂ (WindowLocation.Finds buf base) windows locations) :
    List.Forall₂ index.HoldsWindow windows locations := by
  induction hfinds with
  | nil => exact .nil
  | cons hfirst _ ih =>
    refine .cons ?_ (ih fun filter hmem => h filter (List.mem_cons_of_mem _ hmem))
    cases hfirst with
    | absent => exact .absent
    | saturated => exact .saturated
    | filter hfinds => exact .filter (holds_of_finds hin hfits (h _ List.mem_cons_self) hfinds)

theorem serves_of_found {buf : List UInt8} {base : ℕ} (hin : At index.map base buf)
    (hfits : index.map.length < 2 ^ 63) {groups : List GroupBlooms} {rowGroupRows : List ℕ}
    (h : List.Forall₂ GroupBlooms.Storable rowGroupRows groups)
    {located : List (BloomLocation × List WindowLocation)}
    (hfound : List.Forall₂ (GroupBlooms.Found buf base) groups located)
    (hline : index.line = located.map Prod.fst)
    (hwindows : index.exactFields = located.map Prod.snd) : index.Serves groups := by
  suffices hboth :
      List.Forall₂ (fun blooms location => index.Holds blooms.line location) groups
          (located.map Prod.fst) ∧
        List.Forall₂ (fun blooms windows =>
          List.Forall₂ index.HoldsWindow blooms.exactFields windows) groups
          (located.map Prod.snd) by
    rw [← hline, ← hwindows] at hboth
    exact ⟨hboth.1, hboth.2⟩
  clear hline hwindows
  induction h generalizing located with
  | nil =>
    cases hfound
    exact ⟨.nil, .nil⟩
  | cons hfirst _ ih =>
    cases hfound with
    | cons hfound hrest =>
      obtain ⟨hlines, hwindows⟩ := ih hrest
      exact ⟨.cons (holds_of_finds hin hfits hfirst.line hfound.1) hlines,
        .cons (holdsWindow_of_finds hin hfits hfirst.windows hfound.2) hwindows⟩

/-- **The file of a writer is read back as it was written.** -/
theorem serves_of_write {groups : List GroupBlooms} {rowGroupRows : List ℕ}
    (h : List.Forall₂ GroupBlooms.Storable rowGroupRows groups) {map : List UInt8}
    (hmap : writeIndexSections (encodeBlooms groups) = some map) :
    ∃ index, buildBloomIndex map rowGroupRows = .ok index ∧ index.Serves groups := by
  obtain ⟨hfits, hlength, hin, hoffset, hsplit⟩ := splitIndex_write hmap
  obtain ⟨located, hfound, hlocate⟩ := locateBlooms_encode (by decide : 9 ≤ 128) hfits h
  refine ⟨⟨map, located.map Prod.fst, located.map Prod.snd⟩, ?_,
    serves_of_found hin (by dsimp only; omega) h hfound rfl rfl⟩
  simp only [buildBloomIndex, hoffset, hsplit, hlocate, bind, Except.bind]

end BloomIndex

/-! ### The filters of row groups -/

namespace FilterMath

/-- The filter of some items has a size that its header can hold. -/
theorem storable_foldl_insert (math : FilterMath) {n : ℕ} (h : math.bits n < 2 ^ 31)
    (items : List (List UInt8)) :
    (items.foldl BloomFilter.insert (.withCapacity (math.sizing n))).Storable := by
  have hbits : 1024 ≤ math.optimalBits n ∧ 8 ∣ math.optimalBits n ∧ math.optimalBits n < 2 ^ 32 := by
    rw [optimalBits]
    split
    · decide
    · exact ⟨by omega, by omega, by omega⟩
  have hk : math.optimalK (math.optimalBits n) n < 2 ^ 32 := by
    rw [optimalK]
    split <;> omega
  have hkeeps : ∀ filter : BloomFilter, filter.Storable →
      (items.foldl BloomFilter.insert filter).Storable := by
    induction items with
    | nil => exact fun _ h => h
    | cons item items ih =>
      refine fun filter h => ih (filter.insert item) ⟨h.large, h.whole, ?_, h.numBits, h.k⟩
      rw [BloomFilter.insert, length_foldl_set]
      exact h.length
  exact hkeeps _ ⟨hbits.1, hbits.2.1, List.length_replicate .., hbits.2.2, hk⟩

end FilterMath

/-- The sizes are those of four gigabytes and less: for one false positive in a hundred and the
trigrams there are, and for one in a thousand and the tokens that a window may have. -/
structure FilterSizes.Small (sizes : FilterSizes) : Prop where
  line : ∀ n ≤ 2 ^ 24, sizes.line.bits n < 2 ^ 31
  window : ∀ n ≤ maxExactTokensPerWindow, sizes.window.bits n < 2 ^ 31

/-- There are as many trigrams as numbers of three bytes. -/
theorem length_trigrams_le {found : List (List UInt8)} (hnodup : found.Nodup)
    (h : ∀ trigram ∈ found, trigram.length = 3) : found.length ≤ 2 ^ 24 := by
  have hinj : ∀ a ∈ found, ∀ b ∈ found, leNat a = leNat b → a = b := by
    intro a ha b hb hab
    rw [← leBytes_leNat a, ← leBytes_leNat b, h a ha, h b hb, hab]
  have hsub : found.map leNat ⊆ List.range (2 ^ 24) := by
    intro n hn
    obtain ⟨trigram, hmem, rfl⟩ := List.mem_map.1 hn
    have hlt := leNat_lt trigram
    rw [h trigram hmem] at hlt
    exact List.mem_range.2 hlt
  have hle := ((List.nodup_map_iff_inj_on hnodup).2 hinj |>.subperm hsub).length_le
  rwa [List.length_map, List.length_range] at hle

theorem length_of_mem_trigrams {lower : List Char} {trigram : List UInt8}
    (h : trigram ∈ trigrams lower) : trigram.length = 3 := by
  obtain ⟨i, hi, rfl⟩ := List.mem_map.1 h
  rw [List.mem_range] at hi
  rw [List.length_take, List.length_drop]
  omega

variable {sizes : FilterSizes} {charLower : Char → List Char}

theorem storable_lineBloom (hsizes : sizes.Small) (lines : List String) :
    (lineBloom sizes.line.sizing charLower lines).Storable := by
  refine FilterMath.storable_foldl_insert _ (hsizes.line _ ?_) _
  refine max_le (length_trigrams_le (List.nodup_dedup _) fun trigram h => ?_) (by decide)
  obtain ⟨line, -, hmem⟩ := List.mem_flatMap.1 (List.mem_dedup.1 h)
  exact length_of_mem_trigrams hmem

theorem storable_windowBloom (hsizes : sizes.Small) {tokens : List (List UInt8)}
    {filter : BloomFilter} (h : windowBloom sizes.window.sizing tokens = .filter filter) :
    filter.Storable := by
  rw [windowBloom] at h
  split_ifs at h with hnone hmany
  obtain rfl := WindowBloom.filter.inj h
  exact FilterMath.storable_foldl_insert _ (hsizes.window _ (not_lt.1 hmany)) tokens

theorem length_windowsOf {α : Type*} (rows : List α) :
    (windowsOf rows).length = (rows.length + bloomWindowRows - 1) / bloomWindowRows := by
  rw [windowsOf, List.length_map, List.length_range]

/-- The filters of a group of at most 65536 rows. -/
theorem storable_encodeGroupBlooms (hsizes : sizes.Small) {rows : List (Row × Option Pairs)}
    (hrows : rows.length ≤ 65536) {blooms : GroupBlooms}
    (h : encodeGroupBlooms sizes.window.sizing sizes.line.sizing charLower rows = some blooms) :
    blooms.Storable rows.length := by
  obtain ⟨windows, hwindows, rfl⟩ := Option.map_eq_some_iff.1 h
  have hlength := Runs.length_of_mapM_some hwindows
  rw [length_windowsOf] at hlength
  have hmost : windows.length ≤ 64 := by
    rw [hlength, bloomWindowRows]
    omega
  refine ⟨storable_lineBloom hsizes _, ?_, ?_, ?_⟩
  · intro filter hmem
    dsimp only at hmem
    split at hmem
    · cases hmem
    · obtain ⟨tokens, -, hfilter⟩ := List.mem_map.1 hmem
      exact storable_windowBloom hsizes hfilter
  · dsimp only
    split
    · exact .inl rfl
    · exact .inr (by rw [List.length_map, hlength])
  · dsimp only
    split
    · exact Nat.zero_le _
    · rwa [List.length_map]

theorem storable_mapM (hsizes : sizes.Small) {groups : List (List (Row × Option Pairs))}
    (hrows : ∀ rows ∈ groups, rows.length ≤ 65536) {blooms : List GroupBlooms}
    (h : groups.mapM (encodeGroupBlooms sizes.window.sizing sizes.line.sizing charLower) =
      some blooms) : List.Forall₂ GroupBlooms.Storable (groups.map List.length) blooms := by
  induction groups generalizing blooms with
  | nil =>
    obtain rfl := Option.some.inj h
    exact .nil
  | cons rows groups ih =>
    rw [List.mapM_cons, Option.bind_eq_bind, Option.bind_eq_some_iff] at h
    obtain ⟨first, hfirst, h⟩ := h
    obtain ⟨rest, hrest, h⟩ := Option.bind_eq_some_iff.1 h
    obtain rfl := Option.some.inj h
    exact .cons (storable_encodeGroupBlooms hsizes (hrows rows List.mem_cons_self) hfirst)
      (ih (fun rows hmem => hrows rows (List.mem_cons_of_mem _ hmem)) hrest)

/-- Different fields have different tokens. -/
theorem encodeExactFieldToken_injective {name value name' value' : String} {token : List UInt8}
    (h : encodeExactFieldToken name value = some token)
    (h' : encodeExactFieldToken name' value' = some token) : name = name' ∧ value = value' := by
  obtain ⟨hfits, htoken⟩ := Option.ite_none_right_eq_some.1 h
  obtain ⟨hfits', htoken'⟩ := Option.ite_none_right_eq_some.1 h'
  have heq := (Option.some.inj htoken).trans (Option.some.inj htoken').symm
  simp only [List.append_assoc] at heq
  have hrest := List.append_cancel_left (List.append_cancel_left heq)
  obtain ⟨hlength, hrest⟩ := List.append_inj hrest (by simp)
  have hname : (utf8 name).length = (utf8 name').length := by
    rw [← leNat_four hfits.1, hlength, leNat_four hfits'.1]
  obtain ⟨hname, hrest⟩ := List.append_inj hrest hname
  obtain ⟨-, hvalue⟩ := List.append_inj hrest (by simp)
  exact ⟨utf8_injective hname, utf8_injective hvalue⟩

/-- **The index file of a part.**  What is written for row groups of at most 65536 rows is accepted
and found again, window by window; the walk over any bytes returns; where it returns locations, they
lie behind their headers in the file, and every lookup for a row group returns; and different fields
have different tokens. -/
theorem bloom_section (sizes : FilterSizes) (hsizes : sizes.Small) (charLower : Char → List Char) :
    (∀ (groups : List (List (Row × Option Pairs))) (map : List UInt8),
      (∀ rows ∈ groups, rows.length ≤ 65536) → writeIndex sizes charLower groups = some map →
        ∃ blooms index,
          groups.mapM (encodeGroupBlooms sizes.window.sizing sizes.line.sizing charLower) =
            some blooms ∧
          buildBloomIndex map (groups.map List.length) = .ok index ∧ index.Serves blooms) ∧
    (∀ (buf : List UInt8) (base : ℕ) (rowGroupRows : List ℕ), base + buf.length < 2 ^ 63 →
      locateBlooms buf base rowGroupRows ≠ .error .panic) ∧
    (∀ (map : List UInt8) (rowGroupRows : List ℕ), map.length < 2 ^ 63 →
      buildBloomIndex map rowGroupRows ≠ .error .panic ∧
      ∀ index, buildBloomIndex map rowGroupRows = .ok index →
        index.map = map ∧ index.Sound ∧
        ∀ rg < rowGroupRows.length,
          (∀ literals, ∃ admitted, index.bloomPrune rg literals = .ok admitted) ∧
            ∀ p, ∃ mask, index.predicateWindowMask rg p = .ok mask) ∧
    ∀ name value name' value' token, encodeExactFieldToken name value = some token →
      encodeExactFieldToken name' value' = some token → name = name' ∧ value = value' := by
  refine ⟨?_, ?_, ?_, fun _ _ _ _ _ => encodeExactFieldToken_injective⟩
  · intro groups map hrows hmap
    obtain ⟨blooms, hblooms, hwrite⟩ := Option.bind_eq_some_iff.1 hmap
    obtain ⟨index, hindex, hserves⟩ :=
      BloomIndex.serves_of_write (storable_mapM hsizes hrows hblooms) hwrite
    exact ⟨blooms, index, hblooms, hindex, hserves⟩
  · intro buf base rowGroupRows hfits
    exact (total_locateBlooms hfits rowGroupRows).ne_panic
  · intro map rowGroupRows hfits
    have htotal := BloomIndex.total_buildBloomIndex hfits rowGroupRows
    refine ⟨htotal.ne_panic, fun index hindex => ?_⟩
    obtain ⟨hsound, hmap, hline, hexact⟩ := htotal.of_ok hindex
    refine ⟨hmap, hsound, fun rg hrg => ⟨fun literals => ?_, fun p => ?_⟩⟩
    · exact BloomIndex.returns_bloomPrune hsound (by rwa [hline]) literals
    · exact BloomIndex.returns_predicateWindowMask hsound (by rwa [hexact]) p

/-- The sizes for one false positive in a hundred and one in a thousand. -/
def usualSizes : FilterSizes :=
  ⟨LineFilters.hundredth, ⟨fun n => n * 1438 / 100 + 1, fun m n => m * 693 / 1000 / n⟩⟩

/-- A row with a field of its own and one in its line. -/
def fieldRow : Row := ⟨"acme", .one, "user=ada", [("level", "info")]⟩

/-- The filters of one row group of one row. -/
theorem bloom_section_fieldRow :
    ∃ map index, writeIndex usualSizes (fun c => [c.toLower]) [[(fieldRow, none)]] = some map ∧
      buildBloomIndex map [1] = .ok index ∧ index.line.length = 1 ∧ index.exactFields.length = 1 := by
  have hsizes : usualSizes.Small := by
    constructor
    · intro n hn
      simp only [usualSizes, LineFilters.hundredth]
      omega
    · intro n hn
      simp only [usualSizes, maxExactTokensPerWindow] at hn ⊢
      omega
  obtain ⟨map, hmap⟩ := Option.isSome_iff_exists.1 (by decide +kernel :
    (writeIndex usualSizes (fun c => [c.toLower]) [[(fieldRow, none)]]).isSome = true)
  obtain ⟨blooms, index, hblooms, hindex, hserves⟩ :=
    (bloom_section usualSizes hsizes (fun c => [c.toLower])).1 [[(fieldRow, none)]] map
      (by decide) hmap
  have hcount := Runs.length_of_mapM_some hblooms
  exact ⟨map, index, hmap, hindex, hserves.line.length_eq.symm.trans hcount,
    hserves.windows.length_eq.symm.trans hcount⟩

end Part

end Obsy
