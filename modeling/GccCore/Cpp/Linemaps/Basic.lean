import GccCore.Lib.Bisect
import Mathlib.Data.List.GetD
import Mathlib.Tactic.Positivity
import Mathlib.Tactic.NormNum
import Mathlib.Tactic.Ring

/-!
# `libcpp/line-map.c`: source locations

A source location is one 32-bit number. Each map of a set covers the locations from its start to the
start of the next map; inside a map the low `column_bits` bits are a column and the others a line.
The last map is widened or narrowed in place while it has one line only.

* **The set** (`Core`): the highest location handed out lies on the line that began at `highest_line`.
* **Decoding** (`decode_eq`): `linemap_lookup` finds the map of a location from any cached index.
-/

namespace GccCore.Cpp.Linemaps

open GccCore.Lib.Bisect

/-! ## The functions -/

/-- Source: `line-map.h` `enum lc_reason`. -/
inductive LcReason
  | enter
  | leave
  | rename
  deriving DecidableEq

/-- A map; `toFile` is `none` for a null pointer.
Source: `line-map.h` `struct line_map` -/
structure LineMap where
  toFile : Option String
  toLine : ℕ
  startLocation : ℕ
  includedFrom : ℤ
  reason : LcReason
  sysp : ℕ
  columnBits : ℕ
  deriving DecidableEq

/-- The zero bytes behind the maps in use. Source: `line-map.c` `linemap_add` (`memset`). -/
def zeroMap : LineMap :=
  { toFile := none
    toLine := 0
    startLocation := 0
    includedFrom := 0
    reason := .enter
    sysp := 0
    columnBits := 0 }

/-- A set of maps; `used` is the length of the list.
Source: `line-map.h` `struct line_maps` -/
structure LineMaps where
  maps : List LineMap
  cache : ℕ
  depth : ℕ
  highestLocation : ℕ
  highestLine : ℕ
  maxColumnHint : ℕ
  deriving DecidableEq

/-- How a call can fail: `abort`, a signed product out of range, or a null or missing map.
Source: `line-map.c` `linemap_add`, `linemap_line_start`, `linemap_lookup` -/
inductive Failure
  | abort
  | overflow
  | nullPointer
  deriving DecidableEq

/-- Source: `line-map.h` `struct line_maps` (`used`). -/
def LineMaps.used (set : LineMaps) : ℕ := set.maps.length

/-- Source: `line-map.c` (`set->maps[i]`). -/
def LineMaps.get (set : LineMaps) (i : ℕ) : LineMap := set.maps.getD i zeroMap

/-- Source: `line-map.c` (`&set->maps[set->used - 1]`). -/
def LineMaps.last (set : LineMaps) : LineMap := set.get (set.used - 1)

/-- Unsigned subtraction. Source: `line-map.h` `source_location`. -/
def sub32 (a b : ℕ) : ℕ := (a + (2 ^ 32 - b)) % 2 ^ 32

/-- Source: `line-map.h` `SOURCE_LINE`. -/
def sourceLine (map : LineMap) (loc : ℕ) : ℕ :=
  (sub32 loc map.startLocation / 2 ^ map.columnBits + map.toLine) % 2 ^ 32

/-- Source: `line-map.h` `SOURCE_COLUMN`. -/
def sourceColumn (map : LineMap) (loc : ℕ) : ℕ := sub32 loc map.startLocation % 2 ^ map.columnBits

/-- Source: `line-map.c` `linemap_init`. -/
def linemapInit : LineMaps :=
  { maps := [], cache := 0, depth := 0, highestLocation := 0, highestLine := 0, maxColumnHint := 0 }

/-- The map that `linemap_add` fills in.
Source: `line-map.c` `linemap_add` (`map->reason = reason` to the end) -/
def newMap (set : LineMaps) (reason : LcReason) (sysp : ℕ) (toFile : Option String) (toLine : ℕ) :
    LineMap :=
  { toFile := toFile
    toLine := toLine
    startLocation := (set.highestLocation + 1) % 2 ^ 32
    includedFrom :=
      match reason with
      | .enter => if set.depth = 0 then -1 else (BitVec.ofNat 32 (set.used - 1)).toInt
      | .rename => set.last.includedFrom
      | .leave => (set.get set.last.includedFrom.toNat).includedFrom
    reason := reason
    sysp := sysp % 2 ^ 8
    columnBits := 0 }

/-- The set with a new map at its end, which is returned.
Source: `line-map.c` `linemap_add` (`map->reason = reason` to the end) -/
def LineMaps.install (set : LineMaps) (reason : LcReason) (sysp : ℕ) (toFile : Option String)
    (toLine : ℕ) : Option LineMap × LineMaps :=
  let map := newMap set reason sysp toFile toLine
  (some map,
    { maps := set.maps ++ [map]
      cache := set.used
      depth :=
        match reason with
        | .enter => set.depth + 1
        | .rename => set.depth
        | .leave => set.depth - 1
      highestLocation := map.startLocation
      highestLine := map.startLocation
      maxColumnHint := 0 })

/-- The new map takes the values of the map `from` that is returned to.
Source: `line-map.c` `linemap_add` (`if (error || to_file == NULL)`) -/
def LineMaps.installNatural (set : LineMaps) (reason : LcReason) (parent : ℕ) :
    Option LineMap × LineMaps :=
  let map := set.get parent
  set.install reason map.sysp map.toFile (sourceLine map (set.get (parent + 1)).startLocation)

/-- The `LC_LEAVE` branch. Source: `line-map.c` `linemap_add` (`else if (reason == LC_LEAVE)`). -/
def LineMaps.leave (set : LineMaps) (sysp : ℕ) (toFile : Option String) (toLine : ℕ) :
    Except Failure (Option LineMap × LineMaps) :=
  if set.last.includedFrom < 0 then
    match toFile with
    | none => .ok (none, { set with depth := set.depth - 1 })
    | some _ => .ok (set.installNatural .rename (set.used - 1))
  else
    let parent := set.last.includedFrom.toNat
    match toFile, (set.get parent).toFile with
    | none, _ => .ok (set.installNatural .leave parent)
    | some _, none => .error .nullPointer
    | some file, some left =>
      if left = file then .ok (set.install .leave sysp (some file) toLine)
      else .ok (set.installNatural .leave parent)

/-- Source: `line-map.c` `linemap_add`. -/
def linemapAdd (set : LineMaps) (reason : LcReason) (sysp : ℕ) (toFile : Option String)
    (toLine : ℕ) : Except Failure (Option LineMap × LineMaps) :=
  let startLocation := (set.highestLocation + 1) % 2 ^ 32
  let toFile := if toFile = some "" then some "<stdin>" else toFile
  if set.used ≠ 0 ∧ startLocation < set.last.startLocation then .error .abort
  else if set.depth = 0 then .ok (set.install .enter sysp toFile toLine)
  else
    match reason with
    | .enter => .ok (set.install .enter sysp toFile toLine)
    | .rename => .ok (set.install .rename sysp toFile toLine)
    | .leave => set.leave sysp toFile toLine

/-- Whether the current map cannot go on; `lineDelta` is an `int`, negative from `2 ^ 31` on.
Source: `line-map.c` `linemap_line_start` (`add_map`) -/
def needsMap (map : LineMap) (lineDelta maxColumnHint : ℕ) : Except Failure Bool :=
  if 2 ^ 31 ≤ lineDelta then .ok true
  else if 10 < lineDelta ∧ 2 ^ 31 ≤ lineDelta * map.columnBits then .error .overflow
  else
    .ok (decide ((10 < lineDelta ∧ 1000 < lineDelta * map.columnBits) ∨
      2 ^ map.columnBits ≤ maxColumnHint ∨ (maxColumnHint ≤ 80 ∧ 10 ≤ map.columnBits)))

/-- The loop that looks for the width of a column.
Source: `line-map.c` `linemap_line_start` (`while (max_column_hint >= (1U << column_bits))`) -/
def widen (maxColumnHint : ℕ) : ℕ → ℕ → ℕ
  | 0, columnBits => columnBits
  | fuel + 1, columnBits =>
    if 2 ^ columnBits ≤ maxColumnHint then widen maxColumnHint fuel (columnBits + 1) else columnBits

/-- The new width and hint; `none` where the call returns 0.
Source: `line-map.c` `linemap_line_start` (`if (max_column_hint > 100000 || highest > 0xC0000000)`) -/
def columnChoice (highest maxColumnHint : ℕ) : Option (ℕ × ℕ) :=
  if 100000 < maxColumnHint ∨ 0xC0000000 < highest then
    if 0xF0000000 < highest then none else some (0, 0)
  else
    let columnBits := widen maxColumnHint 25 7
    some (columnBits, 2 ^ columnBits)

/-- Source: `line-map.c` `linemap_line_start` (`map->column_bits = column_bits`). -/
def LineMaps.setColumnBits (set : LineMaps) (columnBits : ℕ) : LineMaps :=
  { set with maps := set.maps.set (set.used - 1) { set.last with columnBits := columnBits } }

/-- Source: `line-map.c` `linemap_line_start` (`set->highest_line = r` to the end). -/
def LineMaps.startLine (set : LineMaps) (r maxColumnHint : ℕ) : ℕ × LineMaps :=
  (r, { set with
        highestLine := r
        highestLocation := if set.highestLocation < r then r else set.highestLocation
        maxColumnHint := maxColumnHint })

/-- The start of a line in the last map, for a given width.
Source: `line-map.c` `linemap_line_start` (`r = map->start_location + ...`) -/
def LineMaps.startInLast (set : LineMaps) (columnBits toLine : ℕ) : ℕ :=
  (set.last.startLocation + sub32 toLine set.last.toLine * 2 ^ columnBits) % 2 ^ 32

/-- Whether a new width needs a new map: the old map has several lines, or a column too wide.
Source: `line-map.c` `linemap_line_start` (`if (line_delta < 0 || last_line != map->to_line ...`) -/
def LineMaps.leavesMap (set : LineMaps) (lineDelta columnBits : ℕ) : Prop :=
  2 ^ 31 ≤ lineDelta ∨ sourceLine set.last set.highestLine ≠ set.last.toLine ∨
    2 ^ columnBits ≤ sourceColumn set.last set.highestLocation

/-- The test is decidable. -/
instance (set : LineMaps) (lineDelta columnBits : ℕ) : Decidable (set.leavesMap lineDelta columnBits) :=
  inferInstanceAs (Decidable (_ ∨ _ ∨ _))

/-- A line start with a new width. Source: `line-map.c` `linemap_line_start` (`if (add_map)`). -/
def LineMaps.changeWidth (set : LineMaps) (toLine lineDelta columnBits maxColumnHint : ℕ) :
    Except Failure (ℕ × LineMaps) :=
  if set.leavesMap lineDelta columnBits then do
    let added ← linemapAdd set .rename set.last.sysp set.last.toFile toLine
    let set := added.2
    .ok ((set.setColumnBits columnBits).startLine (set.startInLast columnBits toLine) maxColumnHint)
  else
    .ok ((set.setColumnBits columnBits).startLine (set.startInLast columnBits toLine) maxColumnHint)

/-- Source: `line-map.c` `linemap_line_start`. -/
def linemapLineStart (set : LineMaps) (toLine maxColumnHint : ℕ) : Except Failure (ℕ × LineMaps) :=
  if set.used = 0 then .error .nullPointer
  else do
    let lineDelta := sub32 toLine (sourceLine set.last set.highestLine)
    let addMap ← needsMap set.last lineDelta maxColumnHint
    if addMap then
      match columnChoice set.highestLocation maxColumnHint with
      | none => .ok (0, set)
      | some (columnBits, hint) => set.changeWidth toLine lineDelta columnBits hint
    else
      let lineStart := sub32 set.highestLocation (sourceColumn set.last set.highestLocation)
      .ok (set.startLine ((lineStart + lineDelta * 2 ^ set.last.columnBits) % 2 ^ 32)
        set.maxColumnHint)

/-- Source: `line-map.c` `linemap_position_for_column` (`r = r + to_column` to the end). -/
def LineMaps.handOut (set : LineMaps) (r toColumn : ℕ) : ℕ × LineMaps :=
  let r := (r + toColumn) % 2 ^ 32
  (r, if set.highestLocation ≤ r then { set with highestLocation := r } else set)

/-- Source: `line-map.c` `linemap_position_for_column`. -/
def linemapPositionForColumn (set : LineMaps) (toColumn : ℕ) : Except Failure (ℕ × LineMaps) :=
  let r := set.highestLine
  if set.maxColumnHint ≤ toColumn then
    if 0xC000000 ≤ r ∨ 100000 < toColumn then .ok (r, set)
    else do
      let started ← linemapLineStart set (sourceLine set.last r) (toColumn + 50)
      .ok (started.2.handOut started.1 toColumn)
  else .ok (set.handOut r toColumn)

/-- The midpoint of the search, a sum of two 32-bit numbers.
Source: `line-map.c` `linemap_lookup` (`md = (mn + mx) / 2`) -/
def midpoint (mn mx : ℕ) : ℕ := (mn + mx) % 2 ^ 32 / 2

/-- The index of the map for a location. Source: `line-map.c` `linemap_lookup`. -/
def lookupIndex (set : LineMaps) (line : ℕ) : ℕ :=
  let above := fun md => decide (line < (set.get md).startLocation)
  let mn := set.cache
  let mx := set.used
  if (set.get mn).startLocation ≤ line then
    if mn + 1 = mx ∨ line < (set.get (mn + 1)).startLocation then mn
    else bisect midpoint above (mx - mn) mn mx
  else bisect midpoint above mn 0 mn

/-- Source: `line-map.c` `linemap_lookup`. -/
def linemapLookup (set : LineMaps) (line : ℕ) : Except Failure (LineMap × LineMaps) :=
  if set.used = 0 then .error .nullPointer
  else
    let i := lookupIndex set line
    .ok (set.get i, { set with cache := i })

/-- The file, line and column of a location.
Source: `line-map.c` `linemap_lookup`; `line-map.h` `SOURCE_LINE`, `SOURCE_COLUMN` -/
def decode (set : LineMaps) (loc : ℕ) : Except Failure (Option String × ℕ × ℕ) := do
  let (map, _) ← linemapLookup set loc
  .ok (map.toFile, sourceLine map loc, sourceColumn map loc)

/-! ## Lines and columns of one map -/

/-- Unsigned subtraction that does not wrap. -/
theorem sub32_of_le {a b : ℕ} (hle : b ≤ a) (ha : a < 2 ^ 32) : sub32 a b = a - b := by
  unfold sub32
  have hsum : a + (2 ^ 32 - b) = 2 ^ 32 + (a - b) := by omega
  rw [hsum, Nat.add_mod_left, Nat.mod_eq_of_lt (by omega)]

/-- Adding back what was subtracted. -/
theorem sub32_add {a b : ℕ} (ha : a < 2 ^ 32) (hb : b < 2 ^ 32) : (sub32 a b + b) % 2 ^ 32 = a := by
  unfold sub32
  rw [Nat.mod_add_mod]
  have hsum : a + (2 ^ 32 - b) + b = 2 ^ 32 + a := by omega
  rw [hsum, Nat.add_mod_left, Nat.mod_eq_of_lt ha]

/-- A line is a 32-bit number. -/
theorem sourceLine_lt (map : LineMap) (loc : ℕ) : sourceLine map loc < 2 ^ 32 :=
  Nat.mod_lt _ (by positivity)

/-- The line of a location given by its line offset and column.
Source: `line-map.h` `SOURCE_LINE`
Kind: L -/
theorem sourceLine_offset {map : LineMap} {loc q c : ℕ}
    (hloc : loc = map.startLocation + q * 2 ^ map.columnBits + c) (hc : c < 2 ^ map.columnBits)
    (hlt : loc < 2 ^ 32) : sourceLine map loc = (q + map.toLine) % 2 ^ 32 := by
  unfold sourceLine
  rw [sub32_of_le (by omega) hlt]
  have hoff : loc - map.startLocation = c + q * 2 ^ map.columnBits := by omega
  rw [hoff, Nat.add_mul_div_right _ _ (by positivity), Nat.div_eq_of_lt hc, Nat.zero_add]

/-- The column of a location given by its line offset and column.
Source: `line-map.h` `SOURCE_COLUMN`
Kind: L -/
theorem sourceColumn_offset {map : LineMap} {loc q c : ℕ}
    (hloc : loc = map.startLocation + q * 2 ^ map.columnBits + c) (hc : c < 2 ^ map.columnBits)
    (hlt : loc < 2 ^ 32) : sourceColumn map loc = c := by
  unfold sourceColumn
  rw [sub32_of_le (by omega) hlt]
  have hoff : loc - map.startLocation = c + q * 2 ^ map.columnBits := by omega
  rw [hoff, Nat.add_mul_mod_self_right, Nat.mod_eq_of_lt hc]

/-- The loop finds a width for the hint, at least 7 and at most 17 bits.
Source: `line-map.c` `linemap_line_start` (`while (max_column_hint >= (1U << column_bits))`)
Kind: L -/
theorem widen_spec {hint : ℕ} (hhint : hint ≤ 100000) :
    hint < 2 ^ widen hint 25 7 ∧ widen hint 25 7 ≤ 17 := by
  have hloop : ∀ fuel bits, bits ≤ 17 → 17 < bits + fuel →
      hint < 2 ^ widen hint fuel bits ∧ widen hint fuel bits ≤ 17 := by
    intro fuel
    induction fuel with
    | zero => intro bits hle hlt; omega
    | succ fuel ih =>
      intro bits hle hlt
      unfold widen
      by_cases hwide : 2 ^ bits ≤ hint
      · rw [if_pos hwide]
        have hne : bits ≠ 17 := by
          rintro rfl
          norm_num at hwide
          omega
        exact ih (bits + 1) (by omega) (by omega)
      · rw [if_neg hwide]
        exact ⟨by omega, hle⟩
  exact hloop 25 7 (by omega) (by omega)

/-- What a choice of width promises: it holds the hint, and the new hint is its number of columns.
Source: `line-map.c` `linemap_line_start`
Kind: L -/
theorem columnChoice_spec {highest hint bits hint' : ℕ}
    (h : columnChoice highest hint = some (bits, hint')) :
    bits ≤ 17 ∧ (hint' = 2 ^ bits ∨ (hint' = 0 ∧ bits = 0)) ∧ highest ≤ 0xF0000000 ∧
      (hint ≤ 100000 → highest ≤ 0xC0000000 → hint < 2 ^ bits) := by
  unfold columnChoice at h
  split at h
  case isTrue hgive =>
    split at h
    · cases h
    case isFalse hlow =>
      cases h
      refine ⟨by omega, Or.inr ⟨rfl, rfl⟩, by omega, ?_⟩
      intro h1 h2
      omega
  case isFalse hkeep =>
    cases h
    obtain ⟨hlt, hle⟩ := widen_spec (show hint ≤ 100000 by omega)
    exact ⟨hle, Or.inl rfl, by omega, fun _ _ => hlt⟩

/-! ## The set -/

/-- The shape of a set of maps in use: starts grow, and the highest location lies on the line that begins
at `highestLine` in the last map.
Source: `line-map.h` `struct line_maps` -/
structure Core (set : LineMaps) : Prop where
  used_pos : 0 < set.used
  sorted : ∀ i j, i < j → j < set.used → (set.get i).startLocation < (set.get j).startLocation
  cache_lt : set.cache < set.used
  start_pos : 0 < set.last.startLocation
  start_le : set.last.startLocation ≤ set.highestLine
  line_le : set.highestLine ≤ set.highestLocation
  location_lt : set.highestLocation < 2 ^ 32
  aligned : 2 ^ set.last.columnBits ∣ set.highestLine - set.last.startLocation
  same_line : set.highestLocation < set.highestLine + 2 ^ set.last.columnBits
  bits_le : set.last.columnBits ≤ 17
  line_lt : set.last.toLine < 2 ^ 32
  file_ne : ∀ i, (set.get i).toFile ≠ some ""

/-- A set between two calls: the column hint is the width of the last map.
Source: `line-map.h` `struct line_maps` (`max_column_hint`) -/
structure Wf (set : LineMaps) : Prop extends Core set where
  hint_eq : set.maxColumnHint = 2 ^ set.last.columnBits ∨
    (set.maxColumnHint = 0 ∧ set.last.columnBits = 0)

/-- A location handed out, with what it should decode to. -/
structure Issued where
  loc : ℕ
  file : Option String
  line : ℕ
  column : ℕ
  deriving DecidableEq

/-- The map at `k` covers a location and gives its file, line and column. -/
structure DecodesAt (set : LineMaps) (k : ℕ) (e : Issued) : Prop where
  lt_used : k < set.used
  start_le : (set.get k).startLocation ≤ e.loc
  lt_next : k + 1 < set.used → e.loc < (set.get (k + 1)).startLocation
  file_eq : (set.get k).toFile = e.file
  line_eq : sourceLine (set.get k) e.loc = e.line
  column_eq : sourceColumn (set.get k) e.loc = e.column

/-- A location in use is covered by some map that gives its file, line and column. -/
def Decodes (set : LineMaps) (e : Issued) : Prop :=
  e.loc ≤ set.highestLocation ∧ ∃ k, DecodesAt set k e

/-- The line offset of `highestLine` in the last map. -/
theorem Core.exists_offset {set : LineMaps} (h : Core set) :
    ∃ q, set.highestLine = set.last.startLocation + q * 2 ^ set.last.columnBits := by
  obtain ⟨q, hq⟩ := h.aligned
  refine ⟨q, ?_⟩
  have hle := h.start_le
  rw [Nat.mul_comm] at hq
  omega

/-- A column of the current line, once handed out, decodes.
Source: `line-map.h` `struct line_map` (comment)
Kind: L -/
theorem Core.decodes_column {set : LineMaps} (h : Core set) {c : ℕ}
    (hc : c < 2 ^ set.last.columnBits) (hle : set.highestLine + c ≤ set.highestLocation) :
    Decodes set ⟨set.highestLine + c, set.last.toFile, sourceLine set.last set.highestLine, c⟩ := by
  obtain ⟨q, hq⟩ := h.exists_offset
  have hlt := h.location_lt
  have hused := h.used_pos
  have hloc : set.highestLine + c = set.last.startLocation + q * 2 ^ set.last.columnBits + c := by
    omega
  refine ⟨hle, set.used - 1, ?_⟩
  refine ⟨by omega, ?_, by omega, rfl, ?_, ?_⟩
  · change set.last.startLocation ≤ set.highestLine + c
    omega
  · change sourceLine set.last (set.highestLine + c) = sourceLine set.last set.highestLine
    rw [sourceLine_offset hloc hc (by omega),
      sourceLine_offset (q := q) (c := 0) (by omega) (by positivity) (by omega)]
  · exact sourceColumn_offset hloc hc (lt_of_le_of_lt hle hlt)

/-! ## Lookup -/

/-- The midpoint lies inside the interval as long as there are at most `2 ^ 31` maps.
Source: `line-map.c` `linemap_lookup` (`md = (mn + mx) / 2`)
Kind: L -/
theorem isMidpoint_midpoint {bound : ℕ} (hle : bound ≤ 2 ^ 31) : IsMidpoint midpoint bound := by
  intro mn mx hwide hbound
  unfold midpoint
  rw [Nat.mod_eq_of_lt (by omega)]
  omega

/-- **Lookup is right**: from any cached index it finds the map that covers a location.
Source: `line-map.c` `linemap_lookup`
Kind: P -/
theorem lookupIndex_eq {set : LineMaps} (h : Core set) (hused : set.used ≤ 2 ^ 31) {k loc : ℕ}
    (hk : k < set.used) (hstart : (set.get k).startLocation ≤ loc)
    (hnext : k + 1 < set.used → loc < (set.get (k + 1)).startLocation) :
    lookupIndex set loc = k := by
  have hcache := h.cache_lt
  have hlow : ∀ i, i ≤ k → (set.get i).startLocation ≤ loc := by
    intro i hi
    rcases Nat.eq_or_lt_of_le hi with rfl | hlt
    · exact hstart
    · exact le_trans (le_of_lt (h.sorted i k hlt hk)) hstart
  have hhigh : ∀ i, k < i → i < set.used → loc < (set.get i).startLocation := by
    intro i hki hi
    rcases Nat.eq_or_lt_of_le hki with rfl | hlt
    · exact hnext hi
    · exact lt_trans (hnext (by omega)) (h.sorted (k + 1) i hlt hi)
  have hsearch : ∀ fuel mn mx, mx - mn ≤ fuel → mn ≤ k → k < mx → mx ≤ set.used →
      bisect midpoint (fun md => decide (loc < (set.get md).startLocation)) fuel mn mx = k := by
    intro fuel mn mx hfuel hmn hmx hle
    refine bisect_eq (isMidpoint_midpoint hused) ?_ ?_ fuel mn mx hfuel hmn hmx hle
    · intro i hi
      exact decide_eq_false (by have := hlow i hi; omega)
    · intro i hki hi
      exact decide_eq_true (hhigh i hki hi)
  unfold lookupIndex
  dsimp only
  by_cases hle : set.cache ≤ k
  · rw [if_pos (hlow _ hle)]
    split_ifs with hhit
    · by_contra hne
      rcases hhit with hlast | hnext'
      · omega
      · exact absurd (hlow (set.cache + 1) (by omega)) (by omega)
    · exact hsearch _ _ _ le_rfl hle hk le_rfl
  · rw [if_neg (by have := hhigh set.cache (by omega) hcache; omega)]
    exact hsearch _ _ _ (by omega) (Nat.zero_le k) (by omega) (by omega)

/-- Lookup gives the index of a map in use, whatever the location. Source: `line-map.c` `linemap_lookup`. Kind: L -/
theorem lookupIndex_lt {set : LineMaps} (h : Core set) (hused : set.used ≤ 2 ^ 31) (loc : ℕ) :
    lookupIndex set loc < set.used := by
  have hcache := h.cache_lt
  have hmid := isMidpoint_midpoint hused
  unfold lookupIndex
  dsimp only
  split
  · split
    · exact hcache
    · exact bisect_lt hmid _ _ _ hcache le_rfl
  · exact bisect_lt hmid _ _ _ h.used_pos (le_of_lt hcache)

/-- **Decoding is right**: a location in use decodes to its file, line and column.
Source: `line-map.c` `linemap_lookup`; `line-map.h` `SOURCE_LINE`, `SOURCE_COLUMN`
Kind: P -/
theorem decode_eq {set : LineMaps} (h : Core set) (hused : set.used ≤ 2 ^ 31) {e : Issued}
    (he : Decodes set e) : decode set e.loc = .ok (e.file, e.line, e.column) := by
  obtain ⟨_, k, hk⟩ := he
  have hindex := lookupIndex_eq h hused hk.lt_used hk.start_le hk.lt_next
  have hne : set.used ≠ 0 := Nat.ne_of_gt h.used_pos
  unfold decode linemapLookup
  rw [if_neg hne, hindex]
  change Except.ok ((set.get k).toFile, sourceLine (set.get k) e.loc, sourceColumn (set.get k) e.loc) =
    _
  rw [hk.file_eq, hk.line_eq, hk.column_eq]

end GccCore.Cpp.Linemaps
