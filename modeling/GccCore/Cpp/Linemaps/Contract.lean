import GccCore.Cpp.Linemaps.Basic

/-!
# Source locations decode to what they encode

* **New maps** (`install_core`, `Decodes.install`): a map behind the last one covers no location in use.
* **New widths** (`rewidth_spec`): a map with one line can change its width as long as the columns in
  use fit.
* **Line starts** (`lineStart_spec`): right unless the new line start wraps (`LineStartFits`).
* **Columns** (`position_spec`): right unless the column is so near the limit that the call gives up
  columns for its own location (`NearLimit`).
* **Runs** (`linemap_contract`).
-/

namespace GccCore.Cpp.Linemaps

/-! ## New maps -/

/-- A map in use stays where it is when one is added. -/
theorem install_get_of_lt {set : LineMaps} {reason : LcReason} {sysp toLine i : ℕ}
    {toFile : Option String} (hi : i < set.used) :
    (set.install reason sysp toFile toLine).2.get i = set.get i := by
  unfold LineMaps.install LineMaps.get
  exact List.getD_append _ _ _ _ hi

@[simp] theorem install_used {set : LineMaps} {reason : LcReason} {sysp toLine : ℕ}
    {toFile : Option String} : (set.install reason sysp toFile toLine).2.used = set.used + 1 := by
  simp [LineMaps.install, LineMaps.used]

/-- The new map is the last one. Source: `line-map.c` `linemap_add` (`set->used++`). Kind: L -/
@[simp] theorem install_last {set : LineMaps} {reason : LcReason} {sysp toLine : ℕ}
    {toFile : Option String} :
    (set.install reason sysp toFile toLine).2.last = newMap set reason sysp toFile toLine := by
  unfold LineMaps.last
  rw [install_used, Nat.add_sub_cancel]
  unfold LineMaps.install LineMaps.get LineMaps.used
  simp

theorem install_get_used {set : LineMaps} {reason : LcReason} {sysp toLine : ℕ}
    {toFile : Option String} :
    (set.install reason sysp toFile toLine).2.get set.used = newMap set reason sysp toFile toLine := by
  rw [← install_last, LineMaps.last, install_used, Nat.add_sub_cancel]

/-- Behind the maps in use there are zero bytes. -/
theorem get_of_used_le {set : LineMaps} {i : ℕ} (hi : set.used ≤ i) : set.get i = zeroMap :=
  List.getD_eq_default _ _ hi

/-- A set in use, or the one `linemap_init` made. -/
def Ready (set : LineMaps) : Prop := set = linemapInit ∨ Wf set

/-- The test that `linemap_add` aborts on. Source: `line-map.c` `linemap_add` (`abort ()`). -/
def Aborts (set : LineMaps) : Prop :=
  set.used ≠ 0 ∧ (set.highestLocation + 1) % 2 ^ 32 < set.last.startLocation

/-- If `linemap_add` does not abort, the new start is behind all locations in use.
Source: `line-map.c` `linemap_add`
Kind: L -/
theorem start_of_not_aborts {set : LineMaps} (h : Ready set) (habort : ¬ Aborts set) :
    (set.highestLocation + 1) % 2 ^ 32 = set.highestLocation + 1 := by
  rcases h with rfl | h
  · rfl
  · apply Nat.mod_eq_of_lt
    by_contra hwrap
    have hlt := h.location_lt
    have hmax : set.highestLocation + 1 = 2 ^ 32 := by omega
    apply habort
    refine ⟨Nat.ne_of_gt h.used_pos, ?_⟩
    rw [hmax, Nat.mod_self]
    exact h.start_pos

/-- A new map keeps the shape of the set. Source: `line-map.c` `linemap_add`. Kind: L -/
theorem install_core {set : LineMaps} (h : Ready set) (habort : ¬ Aborts set) {reason : LcReason}
    {sysp toLine : ℕ} {toFile : Option String} (hline : toLine < 2 ^ 32) (hfile : toFile ≠ some "") :
    Wf (set.install reason sysp toFile toLine).2 := by
  have hstart := start_of_not_aborts h habort
  have hlast := @install_last set reason sysp toLine toFile
  have hnew : (newMap set reason sysp toFile toLine).startLocation = set.highestLocation + 1 := hstart
  have hline_eq : (set.install reason sysp toFile toLine).2.highestLine = set.highestLocation + 1 :=
    hstart
  have hloc_eq : (set.install reason sysp toFile toLine).2.highestLocation =
      set.highestLocation + 1 := hstart
  refine
    { used_pos := by simp
      sorted := ?_
      cache_lt := by rw [install_used]; exact Nat.lt_succ_self _
      start_pos := by rw [hlast, hnew]; omega
      start_le := by rw [hlast, hnew, hline_eq]
      line_le := by rw [hline_eq, hloc_eq]
      location_lt := by rw [hloc_eq, ← hstart]; exact Nat.mod_lt _ (by positivity)
      aligned := by rw [hlast, hnew, hline_eq, Nat.sub_self]; exact dvd_zero _
      same_line := by rw [hlast, hloc_eq, hline_eq]; simp [newMap]
      bits_le := by rw [hlast]; exact Nat.zero_le _
      line_lt := by rw [hlast]; exact hline
      file_ne := ?_
      hint_eq := by rw [hlast]; exact Or.inr ⟨rfl, rfl⟩ }
  · intro i j hij hj
    rw [install_used] at hj
    rw [install_get_of_lt (by omega)]
    rcases Nat.eq_or_lt_of_le (Nat.le_of_lt_succ hj) with rfl | hlt
    · -- the new map starts behind the highest location, hence behind the last map
      rw [install_get_used, hnew]
      rcases h with rfl | h
      · exact absurd hij (by simp [linemapInit, LineMaps.used])
      · have hbefore : (set.get i).startLocation ≤ set.last.startLocation := by
          rcases Nat.eq_or_lt_of_le (Nat.le_sub_one_of_lt hij) with rfl | hlt
          · exact le_rfl
          · exact le_of_lt (h.sorted i _ hlt (by omega))
        have := h.start_le
        have := h.line_le
        omega
    · rw [install_get_of_lt hlt]
      rcases h with rfl | h
      · exact absurd hlt (by simp [linemapInit, LineMaps.used])
      · exact h.sorted i j hij hlt
  · intro i
    rcases lt_trichotomy i set.used with hlt | rfl | hgt
    · rw [install_get_of_lt hlt]
      rcases h with rfl | h
      · exact absurd hlt (by simp [linemapInit, LineMaps.used])
      · exact h.file_ne i
    · rw [install_get_used]
      exact hfile
    · rw [get_of_used_le (by rw [install_used]; omega)]
      simp [zeroMap]

/-- Locations in use still decode when a map is added. Source: `line-map.c` `linemap_add`. Kind: L -/
theorem Decodes.install {set : LineMaps} (h : Ready set) (habort : ¬ Aborts set) {reason : LcReason}
    {sysp toLine : ℕ} {toFile : Option String} {e : Issued} (he : Decodes set e) :
    Decodes (set.install reason sysp toFile toLine).2 e := by
  have hstart := start_of_not_aborts h habort
  obtain ⟨hle, k, hk⟩ := he
  have hget := @install_get_of_lt set reason sysp toLine k toFile hk.lt_used
  refine ⟨?_, k, ?_, ?_, ?_, ?_, ?_, ?_⟩
  · change e.loc ≤ (set.highestLocation + 1) % 2 ^ 32
    omega
  · rw [install_used]
    exact Nat.lt_succ_of_lt hk.lt_used
  · rw [hget]; exact hk.start_le
  · intro hnext
    rw [install_used] at hnext
    rcases Nat.eq_or_lt_of_le (Nat.le_of_lt_succ hnext) with heq | hlt
    · rw [heq, install_get_used]
      change e.loc < (set.highestLocation + 1) % 2 ^ 32
      omega
    · rw [install_get_of_lt hlt]
      exact hk.lt_next hlt
  · rw [hget]; exact hk.file_eq
  · rw [hget]; exact hk.line_eq
  · rw [hget]; exact hk.column_eq

/-- **What `linemap_add` can do**: install a map, or leave the main file.
Source: `line-map.c` `linemap_add`
Kind: L -/
theorem linemapAdd_cases {set set' : LineMaps} {reason : LcReason} {sysp toLine : ℕ}
    {toFile : Option String} {map : Option LineMap} (hset : Ready set) (hline : toLine < 2 ^ 32)
    (h : linemapAdd set reason sysp toFile toLine = .ok (map, set')) :
    ¬ Aborts set ∧
      ((∃ reason sysp toFile toLine, toLine < 2 ^ 32 ∧ toFile ≠ some "" ∧
          (map, set') = set.install reason sysp toFile toLine) ∨
        (set.depth ≠ 0 ∧ map = none ∧ set' = { set with depth := set.depth - 1 })) := by
  have hempty : ∀ i, (set.get i).toFile ≠ some "" := by
    rcases hset with rfl | hset
    · intro i
      simp [linemapInit, LineMaps.get, zeroMap]
    · exact hset.file_ne
  have hnatural : ∀ reason parent, ∃ r s f l, l < 2 ^ 32 ∧ f ≠ some "" ∧
      set.installNatural reason parent = set.install r s f l := by
    intro reason parent
    exact ⟨_, _, _, _, sourceLine_lt _ _, hempty parent, rfl⟩
  have hfile : (if toFile = some "" then some "<stdin>" else toFile) ≠ some "" := by
    split
    · decide
    · assumption
  unfold linemapAdd at h
  dsimp only at h
  generalize (if toFile = some "" then some "<stdin>" else toFile) = file at h hfile
  split at h
  · cases h
  case isFalse habort =>
    refine ⟨habort, ?_⟩
    split at h
    · cases h
      exact Or.inl ⟨_, _, _, _, hline, hfile, rfl⟩
    case isFalse hdepth =>
      split at h
      · cases h
        exact Or.inl ⟨_, _, _, _, hline, hfile, rfl⟩
      · cases h
        exact Or.inl ⟨_, _, _, _, hline, hfile, rfl⟩
      · unfold LineMaps.leave at h
        split at h
        · split at h
          · cases h
            exact Or.inr ⟨hdepth, rfl, rfl⟩
          · cases h
            exact Or.inl (hnatural _ _)
        · dsimp only at h
          split at h
          · cases h
            exact Or.inl (hnatural _ _)
          · cases h
          · split at h
            · cases h
              exact Or.inl ⟨_, _, _, _, hline, hfile, rfl⟩
            · cases h
              exact Or.inl (hnatural _ _)

/-! ## New widths -/

section Width

variable {set : LineMaps} {bits : ℕ}

@[simp] theorem setColumnBits_used : (set.setColumnBits bits).used = set.used := by
  simp [LineMaps.setColumnBits, LineMaps.used]

/-- Maps other than the last one keep their width. -/
theorem setColumnBits_get_of_ne {i : ℕ} (hi : i ≠ set.used - 1) :
    (set.setColumnBits bits).get i = set.get i := by
  unfold LineMaps.setColumnBits LineMaps.get
  simp only [List.getD_eq_getElem?_getD]
  rw [List.getElem?_set_ne (Ne.symm hi)]

/-- The last map has the new width. -/
theorem setColumnBits_last (hused : 0 < set.used) :
    (set.setColumnBits bits).last = { set.last with columnBits := bits } := by
  unfold LineMaps.last
  rw [setColumnBits_used]
  unfold LineMaps.setColumnBits
  have hlt : set.used - 1 < set.maps.length := by
    change set.used - 1 < set.used
    omega
  change (set.maps.set (set.used - 1) { set.last with columnBits := bits }).getD (set.used - 1) zeroMap =
    _
  rw [List.getD_eq_getElem?_getD, List.getElem?_set_self hlt]
  rfl

/-- No start moves with a width. -/
theorem setColumnBits_startLocation (i : ℕ) :
    ((set.setColumnBits bits).get i).startLocation = (set.get i).startLocation := by
  by_cases hi : i = set.used - 1
  · by_cases hused : 0 < set.used
    · have hlast := @setColumnBits_last set bits hused
      unfold LineMaps.last at hlast
      rw [setColumnBits_used] at hlast
      rw [hi, hlast]
    · have hnil : set.maps = [] := List.length_eq_zero_iff.mp (by unfold LineMaps.used at hused; omega)
      simp [LineMaps.setColumnBits, LineMaps.get, hnil]
  · rw [setColumnBits_get_of_ne hi]

/-- A map with one line can change its width to one that holds the columns in use.
Source: `line-map.c` `linemap_line_start` (`map->column_bits = column_bits`)
Kind: L -/
theorem setColumnBits_core (h : Core set) (hone : set.highestLine = set.last.startLocation)
    (hfit : set.highestLocation < set.last.startLocation + 2 ^ bits) (hbits : bits ≤ 17) :
    Core (set.setColumnBits bits) := by
  have hlast := @setColumnBits_last set bits h.used_pos
  refine
    { used_pos := by rw [setColumnBits_used]; exact h.used_pos
      sorted := ?_
      cache_lt := by rw [setColumnBits_used]; exact h.cache_lt
      start_pos := by rw [hlast]; exact h.start_pos
      start_le := by rw [hlast]; exact h.start_le
      line_le := h.line_le
      location_lt := h.location_lt
      aligned := ?_
      same_line := ?_
      bits_le := by rw [hlast]; exact hbits
      line_lt := by rw [hlast]; exact h.line_lt
      file_ne := ?_ }
  · intro i j hij hj
    rw [setColumnBits_used] at hj
    rw [setColumnBits_startLocation, setColumnBits_startLocation]
    exact h.sorted i j hij hj
  · rw [hlast]
    change 2 ^ bits ∣ set.highestLine - set.last.startLocation
    rw [hone, Nat.sub_self]
    exact dvd_zero _
  · rw [hlast]
    change set.highestLocation < set.highestLine + 2 ^ bits
    rw [hone]
    exact hfit
  · intro i
    by_cases hi : i = set.used - 1
    · unfold LineMaps.last at hlast
      rw [setColumnBits_used, ← hi] at hlast
      rw [hlast]
      exact h.file_ne i
    · rw [setColumnBits_get_of_ne hi]
      exact h.file_ne i

/-- Locations in use still decode after a change of width: in the last map they are columns of its one
line, which both widths hold.
Source: `line-map.c` `linemap_line_start` (`map->column_bits = column_bits`)
Kind: L -/
theorem Decodes.setColumnBits (h : Core set) (hone : set.highestLine = set.last.startLocation)
    (hfit : set.highestLocation < set.last.startLocation + 2 ^ bits) {e : Issued}
    (he : Decodes set e) : Decodes (set.setColumnBits bits) e := by
  obtain ⟨hle, k, hk⟩ := he
  have hlt := h.location_lt
  have hsame := h.same_line
  refine ⟨hle, k, ?_⟩
  by_cases hlast : k = set.used - 1
  · have hmap : (set.setColumnBits bits).get k = { set.last with columnBits := bits } := by
      have heq := @setColumnBits_last set bits h.used_pos
      unfold LineMaps.last at heq
      rw [setColumnBits_used, ← hlast] at heq
      rw [hlast] at heq ⊢
      exact heq
    have hget : set.get k = set.last := by rw [hlast]; rfl
    have hstart := hk.start_le
    have hline := hk.line_eq
    have hcolumn := hk.column_eq
    rw [hget] at hstart hline hcolumn
    have hold : e.loc = set.last.startLocation + 0 * 2 ^ set.last.columnBits +
        (e.loc - set.last.startLocation) := by omega
    have hnew : e.loc = set.last.startLocation + 0 * 2 ^ bits +
        (e.loc - set.last.startLocation) := by omega
    refine ⟨by rw [setColumnBits_used]; exact hk.lt_used, ?_, ?_, ?_, ?_, ?_⟩
    · rw [hmap]; exact hstart
    · intro hnext
      rw [setColumnBits_used] at hnext
      omega
    · rw [hmap, ← hk.file_eq, hget]
    · rw [hmap, ← hline, sourceLine_offset hold (by omega) (by omega)]
      exact sourceLine_offset hnew (by change _ < 2 ^ bits; omega) (by omega)
    · rw [hmap, ← hcolumn, sourceColumn_offset hold (by omega) (by omega)]
      exact sourceColumn_offset hnew (by change _ < 2 ^ bits; omega) (by omega)
  · have hget := @setColumnBits_get_of_ne set bits k hlast
    refine ⟨by rw [setColumnBits_used]; exact hk.lt_used, ?_, ?_, ?_, ?_, ?_⟩
    · rw [hget]; exact hk.start_le
    · intro hnext
      rw [setColumnBits_used] at hnext
      rw [setColumnBits_startLocation]
      exact hk.lt_next hnext
    · rw [hget]; exact hk.file_eq
    · rw [hget]; exact hk.line_eq
    · rw [hget]; exact hk.column_eq

end Width

/-! ## Line starts -/

/-- Locations in use still decode if the maps stay and the highest location does not fall. -/
theorem Decodes.mono {set set' : LineMaps} (hmaps : set'.maps = set.maps)
    (hle : set.highestLocation ≤ set'.highestLocation) {e : Issued} (he : Decodes set e) :
    Decodes set' e := by
  obtain ⟨hloc, k, hk⟩ := he
  have hget : set'.get k = set.get k := by unfold LineMaps.get; rw [hmaps]
  have hnext : set'.get (k + 1) = set.get (k + 1) := by unfold LineMaps.get; rw [hmaps]
  have hused : set'.used = set.used := by unfold LineMaps.used; rw [hmaps]
  refine ⟨le_trans hloc hle, k, ?_, ?_, ?_, ?_, ?_, ?_⟩
  · rw [hused]; exact hk.lt_used
  · rw [hget]; exact hk.start_le
  · rw [hused, hnext]; exact hk.lt_next
  · rw [hget]; exact hk.file_eq
  · rw [hget]; exact hk.line_eq
  · rw [hget]; exact hk.column_eq

/-- The depth and the cached index may change. -/
theorem Wf.touch {set : LineMaps} (h : Wf set) (depth : ℕ) {cache : ℕ} (hcache : cache < set.used) :
    Wf { set with depth := depth, cache := cache } :=
  { used_pos := h.used_pos
    sorted := h.sorted
    cache_lt := hcache
    start_pos := h.start_pos
    start_le := h.start_le
    line_le := h.line_le
    location_lt := h.location_lt
    aligned := h.aligned
    same_line := h.same_line
    bits_le := h.bits_le
    line_lt := h.line_lt
    file_ne := h.file_ne
    hint_eq := h.hint_eq }

/-- What a call keeps: the shape, the current file and the locations in use; it adds at most one map. -/
structure Keeps (set set' : LineMaps) : Prop where
  wf : Wf set'
  file_eq : set'.last.toFile = set.last.toFile
  decodes : ∀ e, Decodes set e → Decodes set' e
  location_le : set.highestLocation ≤ set'.highestLocation
  used_le : set'.used ≤ set.used + 1

/-- A later line of the last map begins. Source: `line-map.c` `linemap_line_start`. Kind: L -/
theorem startLine_spec {set : LineMaps} (h : Core set) {d hint r : ℕ}
    (hr : r = set.highestLine + d * 2 ^ set.last.columnBits) (hlt : r < 2 ^ 32)
    (hhint : hint = 2 ^ set.last.columnBits ∨ (hint = 0 ∧ set.last.columnBits = 0)) :
    Keeps set (set.startLine r hint).2 := by
  have hle := h.line_le
  have hsame := h.same_line
  have hloc := h.location_lt
  have hmax : (set.startLine r hint).2.highestLocation =
      if set.highestLocation < r then r else set.highestLocation := rfl
  -- a line that is not the current one begins behind all columns of the current one
  have hstep : d = 0 ∨ set.highestLocation < r := by
    rcases Nat.eq_zero_or_pos d with h0 | hpos
    · exact Or.inl h0
    · right
      have := Nat.le_mul_of_pos_left (2 ^ set.last.columnBits) hpos
      omega
  refine ⟨?_, rfl, ?_, ?_, Nat.le_succ _⟩
  · refine
      { used_pos := h.used_pos
        sorted := h.sorted
        cache_lt := h.cache_lt
        start_pos := h.start_pos
        start_le := ?_
        line_le := ?_
        location_lt := ?_
        aligned := ?_
        same_line := ?_
        bits_le := h.bits_le
        line_lt := h.line_lt
        file_ne := h.file_ne
        hint_eq := hhint }
    · change set.last.startLocation ≤ r
      have := h.start_le
      omega
    · change r ≤ _
      rw [hmax]
      split <;> omega
    · rw [hmax]
      split <;> omega
    · change 2 ^ set.last.columnBits ∣ r - set.last.startLocation
      have hsum : r - set.last.startLocation =
          set.highestLine - set.last.startLocation + d * 2 ^ set.last.columnBits := by
        have := h.start_le
        omega
      rw [hsum]
      exact dvd_add h.aligned (dvd_mul_left _ _)
    · change _ < r + 2 ^ set.last.columnBits
      rw [hmax]
      split
      · exact Nat.lt_add_of_pos_right (by positivity)
      · rcases hstep with rfl | hstep
        · omega
        · omega
  · intro e he
    have hgrow : set.highestLocation ≤ (set.startLine r hint).2.highestLocation := by
      rw [hmax]
      split <;> omega
    exact Decodes.mono (show (set.startLine r hint).2.maps = set.maps from rfl) hgrow he
  · rw [hmax]
    split <;> omega

/-- A line of the last map begins after its width was changed.
Source: `line-map.c` `linemap_line_start` (`r = map->start_location + ...`)
Kind: L -/
theorem rewidth_spec {set : LineMaps} (h : Core set) (hone : set.highestLine = set.last.startLocation)
    {bits hint toLine : ℕ} (hfit : set.highestLocation < set.last.startLocation + 2 ^ bits)
    (hbits : bits ≤ 17) (hhint : hint = 2 ^ bits ∨ (hint = 0 ∧ bits = 0)) (hline : toLine < 2 ^ 32)
    (hroom : set.highestLine + sub32 toLine set.last.toLine * 2 ^ bits < 2 ^ 32) :
    Keeps set ((set.setColumnBits bits).startLine (set.startInLast bits toLine) hint).2 ∧
      ((set.setColumnBits bits).startLine (set.startInLast bits toLine) hint).2.used = set.used ∧
      sourceLine ((set.setColumnBits bits).startLine (set.startInLast bits toLine) hint).2.last
        (set.startInLast bits toLine) = toLine ∧
      ((set.setColumnBits bits).startLine (set.startInLast bits toLine) hint).2.last.columnBits =
        bits := by
  have hcore := setColumnBits_core h hone hfit hbits
  have hlast := @setColumnBits_last set bits h.used_pos
  have hr : set.startInLast bits toLine =
      set.highestLine + sub32 toLine set.last.toLine * 2 ^ bits := by
    unfold LineMaps.startInLast
    rw [← hone, Nat.mod_eq_of_lt hroom]
  have hstart : Keeps (set.setColumnBits bits)
      ((set.setColumnBits bits).startLine (set.startInLast bits toLine) hint).2 := by
    refine startLine_spec hcore (d := sub32 toLine set.last.toLine) ?_ (by rw [hr]; exact hroom) ?_
    · rw [hlast]
      exact hr
    · rw [hlast]
      exact hhint
  refine ⟨⟨hstart.wf, ?_, ?_, hstart.location_le, ?_⟩, setColumnBits_used, ?_, ?_⟩
  · rw [hstart.file_eq, hlast]
  · intro e he
    exact hstart.decodes e (he.setColumnBits h hone hfit)
  · have := hstart.used_le
    rw [setColumnBits_used] at this
    exact this
  · change sourceLine (set.setColumnBits bits).last _ = toLine
    rw [hlast, sourceLine_offset (q := sub32 toLine set.last.toLine) (c := 0)]
    · exact sub32_add hline h.line_lt
    · change _ = set.last.startLocation + _ * 2 ^ bits + 0
      rw [hr, hone, Nat.add_zero]
    · positivity
    · rw [hr]
      exact hroom
  · change (set.setColumnBits bits).last.columnBits = bits
    rw [hlast]

/-- The line delta of a call. Source: `line-map.c` `linemap_line_start` (`line_delta`). -/
def lineDelta (set : LineMaps) (toLine : ℕ) : ℕ :=
  sub32 toLine (sourceLine set.last set.highestLine)

/-- The current line is no lines away. -/
theorem lineDelta_self (set : LineMaps) : lineDelta set (sourceLine set.last set.highestLine) = 0 := by
  unfold lineDelta
  rw [sub32_of_le le_rfl (sourceLine_lt _ _), Nat.sub_self]

/-- The width of the last map after a call that adds no map, or `none` if the call adds one.
Source: `line-map.c` `linemap_line_start` -/
def stayingWidth (set : LineMaps) (toLine maxColumnHint : ℕ) : Option ℕ :=
  match needsMap set.last (lineDelta set toLine) maxColumnHint with
  | .ok true =>
    match columnChoice set.highestLocation maxColumnHint with
    | some (bits, _) => if set.leavesMap (lineDelta set toLine) bits then none else some bits
    | none => none
  | .ok false => some set.last.columnBits
  | .error _ => none

/-- A line start that stays in its map does not wrap around. -/
def LineStartFits (set : LineMaps) (toLine maxColumnHint : ℕ) : Prop :=
  ∀ bits, stayingWidth set toLine maxColumnHint = some bits →
    set.highestLine + lineDelta set toLine * 2 ^ bits < 2 ^ 32

/-- The line of `highestLine` is the first line of the last map only if it begins there. -/
theorem Core.one_line {set : LineMaps} (h : Core set)
    (hline : sourceLine set.last set.highestLine = set.last.toLine) :
    set.highestLine = set.last.startLocation := by
  obtain ⟨q, hq⟩ := h.exists_offset
  have hlt := h.location_lt
  have hle := h.line_le
  rw [sourceLine_offset (q := q) (c := 0) (by omega) (by positivity) (by omega)] at hline
  have hqle : q ≤ q * 2 ^ set.last.columnBits := Nat.le_mul_of_pos_right q (by positivity)
  have hline_lt := h.line_lt
  have hq0 : q = 0 := by
    by_contra hne
    have hwrap : q + set.last.toLine < 2 ^ 32 ∨ 2 ^ 32 ≤ q + set.last.toLine := by omega
    omega
  rw [hq, hq0]
  omega

/-- The column of the highest location. -/
theorem Core.sourceColumn_highest {set : LineMaps} (h : Core set) :
    sourceColumn set.last set.highestLocation = set.highestLocation - set.highestLine := by
  obtain ⟨q, hq⟩ := h.exists_offset
  have hle := h.line_le
  have hsame := h.same_line
  exact sourceColumn_offset (q := q) (by omega) (by omega) h.location_lt

/-- A renamed map with a file of the set is installed as it is. Source: `line-map.c` `linemap_add`. Kind: L -/
theorem linemapAdd_rename {set : LineMaps} {sysp toLine : ℕ} {toFile : Option String}
    (hfile : toFile ≠ some "") (habort : ¬ Aborts set) :
    ∃ reason, linemapAdd set .rename sysp toFile toLine =
      .ok (set.install reason sysp toFile toLine) := by
  unfold linemapAdd
  dsimp only
  rw [if_neg hfile, if_neg (show ¬ (set.used ≠ 0 ∧ _) from habort)]
  by_cases hdepth : set.depth = 0
  · exact ⟨.enter, if_pos hdepth⟩
  · exact ⟨.rename, if_neg hdepth⟩

/-- A line start with a new width, in the same map or in a new one.
Source: `line-map.c` `linemap_line_start` (`if (add_map)`)
Kind: L -/
theorem changeWidth_spec {set set' : LineMaps} (h : Wf set) {toLine bits hint r : ℕ}
    (hline : toLine < 2 ^ 32) (hbits : bits ≤ 17)
    (hhint : hint = 2 ^ bits ∨ (hint = 0 ∧ bits = 0))
    (hroom : ¬ set.leavesMap (lineDelta set toLine) bits →
      set.highestLine + lineDelta set toLine * 2 ^ bits < 2 ^ 32)
    (hcall : set.changeWidth toLine (lineDelta set toLine) bits hint = .ok (r, set')) :
    Keeps set set' ∧ r = set'.highestLine ∧ sourceLine set'.last r = toLine ∧
      set'.last.columnBits = bits ∧
      r ≤ set.highestLocation + 1 + lineDelta set toLine * 2 ^ bits := by
  unfold LineMaps.changeWidth at hcall
  split at hcall
  case isTrue hleaves =>
    by_cases habort : Aborts set
    · have hadd : linemapAdd set .rename set.last.sysp set.last.toFile toLine = .error .abort := by
        unfold linemapAdd
        exact if_pos habort
      rw [hadd] at hcall
      cases hcall
    · obtain ⟨reason, hadd⟩ := @linemapAdd_rename set set.last.sysp toLine
        set.last.toFile (h.file_ne _) habort
      rw [hadd] at hcall
      cases hcall
      have hready : Ready set := Or.inr h
      have hwf : Wf (set.install reason set.last.sysp set.last.toFile toLine).2 :=
        install_core hready habort hline (h.file_ne _)
      have hstart := start_of_not_aborts hready habort
      have hlt := hwf.location_lt
      have hone : (set.install reason set.last.sysp set.last.toFile toLine).2.highestLine =
          (set.install reason set.last.sysp set.last.toFile toLine).2.last.startLocation := by
        rw [install_last]
        rfl
      have hroom : (set.install reason set.last.sysp set.last.toFile toLine).2.highestLine +
          sub32 toLine (set.install reason set.last.sysp set.last.toFile toLine).2.last.toLine *
            2 ^ bits < 2 ^ 32 := by
        rw [install_last]
        change _ + sub32 toLine toLine * _ < _
        rw [sub32_of_le le_rfl hline, Nat.sub_self, Nat.zero_mul]
        exact hlt
      obtain ⟨hkeeps, hused, hsource, hwidth⟩ := rewidth_spec hwf.toCore hone
        (by rw [← hone]; exact Nat.lt_add_of_pos_right (by positivity)) hbits hhint hline hroom
      refine ⟨⟨hkeeps.wf, ?_, ?_, ?_, ?_⟩, rfl, hsource, hwidth, ?_⟩
      · exact hkeeps.file_eq.trans (by rw [install_last]; rfl)
      · intro e he
        exact hkeeps.decodes e (he.install hready habort)
      · refine le_trans ?_ hkeeps.location_le
        change _ ≤ (set.highestLocation + 1) % 2 ^ 32
        omega
      · exact le_of_eq (hused.trans install_used)
      · refine le_trans (Nat.mod_le _ _) ?_
        rw [install_last]
        change (set.highestLocation + 1) % 2 ^ 32 + sub32 toLine toLine * 2 ^ bits ≤ _
        rw [sub32_of_le le_rfl hline, Nat.sub_self, Nat.zero_mul, hstart]
        exact Nat.le_add_right _ _
  case isFalse hstays =>
    have hroom := hroom hstays
    unfold LineMaps.leavesMap at hstays
    push Not at hstays
    obtain ⟨_, hlast, hcolumn⟩ := hstays
    have hone := h.one_line hlast
    rw [h.sourceColumn_highest] at hcolumn
    have hle := h.line_le
    cases hcall
    have hdelta : lineDelta set toLine = sub32 toLine set.last.toLine := by
      unfold lineDelta
      rw [hlast]
    rw [hdelta] at hroom
    obtain ⟨hkeeps, _, hsource, hwidth⟩ := rewidth_spec h.toCore hone (by omega) hbits hhint hline hroom
    refine ⟨hkeeps, rfl, hsource, hwidth, ?_⟩
    refine le_trans (Nat.mod_le _ _) ?_
    rw [hdelta, ← hone]
    omega

/-- A line start in a new or widened map. Source: `line-map.c` `linemap_line_start`. Kind: L -/
theorem lineStart_of_some {set : LineMaps} {toLine hint bits hint' : ℕ} (hused : set.used ≠ 0)
    (hneeds : needsMap set.last (lineDelta set toLine) hint = .ok true)
    (hchoice : columnChoice set.highestLocation hint = some (bits, hint')) :
    linemapLineStart set toLine hint = set.changeWidth toLine (lineDelta set toLine) bits hint' := by
  unfold lineDelta at hneeds
  simp only [linemapLineStart, if_neg hused, hneeds, hchoice, bind, Except.bind, if_true]
  rfl

/-- A line start that finds no location left. Source: `line-map.c` `linemap_line_start`. Kind: L -/
theorem lineStart_of_none {set : LineMaps} {toLine hint : ℕ} (hused : set.used ≠ 0)
    (hneeds : needsMap set.last (lineDelta set toLine) hint = .ok true)
    (hchoice : columnChoice set.highestLocation hint = none) :
    linemapLineStart set toLine hint = .ok (0, set) := by
  unfold lineDelta at hneeds
  simp only [linemapLineStart, if_neg hused, hneeds, hchoice, bind, Except.bind, if_true]

/-- **Line starts**: a line start that fits keeps the locations in use, and the line it returns is the one
asked for (unless the locations are so many that it returns 0).
Source: `line-map.c` `linemap_line_start`
Kind: P -/
theorem lineStart_spec {set set' : LineMaps} (h : Wf set) {toLine hint r : ℕ} (hline : toLine < 2 ^ 32)
    (hfits : LineStartFits set toLine hint) (hcall : linemapLineStart set toLine hint = .ok (r, set')) :
    Keeps set set' ∧ (set.highestLocation ≤ 0xF0000000 →
      r = set'.highestLine ∧ sourceLine set'.last r = toLine) := by
  have hlt := h.location_lt
  have hle := h.line_le
  have hused := Nat.ne_of_gt h.used_pos
  rcases hneeds : needsMap set.last (lineDelta set toLine) hint with fault | needs
  · unfold linemapLineStart at hcall
    rw [if_neg hused] at hcall
    change (needsMap set.last (lineDelta set toLine) hint >>= _) = _ at hcall
    rw [hneeds] at hcall
    cases hcall
  cases needs with
  | true =>
    rcases hchoice : columnChoice set.highestLocation hint with - | ⟨bits, hint'⟩
    · rw [lineStart_of_none hused hneeds hchoice] at hcall
      cases hcall
      refine ⟨⟨h, rfl, fun _ he => he, le_rfl, Nat.le_succ _⟩, ?_⟩
      intro hlow
      unfold columnChoice at hchoice
      split at hchoice
      · rw [if_neg (by omega)] at hchoice
        cases hchoice
      · cases hchoice
    · rw [lineStart_of_some hused hneeds hchoice] at hcall
      obtain ⟨hbits, hhint, _, _⟩ := columnChoice_spec hchoice
      have hroom : ¬ set.leavesMap (lineDelta set toLine) bits →
          set.highestLine + lineDelta set toLine * 2 ^ bits < 2 ^ 32 := by
        intro hstays
        apply hfits
        unfold stayingWidth
        rw [hneeds, hchoice]
        exact if_neg hstays
      obtain ⟨hkeeps, hr, hsource, _, _⟩ := changeWidth_spec h hline hbits hhint hroom hcall
      exact ⟨hkeeps, fun _ => ⟨hr, hsource⟩⟩
  | false =>
    unfold linemapLineStart at hcall
    rw [if_neg hused] at hcall
    change (needsMap set.last (lineDelta set toLine) hint >>= _) = _ at hcall
    rw [hneeds] at hcall
    have hroom : set.highestLine + lineDelta set toLine * 2 ^ set.last.columnBits < 2 ^ 32 := by
      apply hfits
      unfold stayingWidth
      rw [hneeds]
    have hr : (sub32 set.highestLocation (sourceColumn set.last set.highestLocation) +
        lineDelta set toLine * 2 ^ set.last.columnBits) % 2 ^ 32 =
        set.highestLine + lineDelta set toLine * 2 ^ set.last.columnBits := by
      rw [h.sourceColumn_highest, sub32_of_le (by omega) hlt, Nat.sub_sub_self hle,
        Nat.mod_eq_of_lt hroom]
    cases hcall
    refine ⟨startLine_spec h.toCore hr (lt_of_eq_of_lt hr hroom) h.hint_eq, ?_⟩
    intro _
    refine ⟨rfl, ?_⟩
    obtain ⟨q, hq⟩ := h.exists_offset
    have hcurrent := sourceLine_offset (q := q) (c := 0) (by omega) (by positivity)
      (show set.highestLine < 2 ^ 32 by omega)
    change sourceLine set.last _ = toLine
    rw [sourceLine_offset (q := q + lineDelta set toLine) (c := 0)]
    · have hsum : (lineDelta set toLine + sourceLine set.last set.highestLine) % 2 ^ 32 = toLine :=
        sub32_add hline (sourceLine_lt _ _)
      rw [hcurrent, Nat.add_mod_mod] at hsum
      refine Eq.trans ?_ hsum
      congr 1
      omega
    · change (sub32 _ _ + lineDelta set toLine * _) % _ = _
      rw [hr, hq]
      ring
    · positivity
    · change (sub32 _ _ + lineDelta set toLine * _) % _ < _
      rw [hr]
      exact hroom

/-! ## Columns -/

/-- The column that a location handed out for `toColumn` decodes to: 0 where columns are given up.
Source: `line-map.c` `linemap_position_for_column` -/
def issuedColumn (set : LineMaps) (toColumn : ℕ) : ℕ :=
  if set.maxColumnHint ≤ toColumn ∧ 100000 < toColumn then 0 else toColumn

/-- A column that needs a wider map, small enough to ask for one and too large for the width hint: the call
gives up the columns of the map in which it then counts columns. -/
def NearLimit (set : LineMaps) (toColumn : ℕ) : Prop :=
  set.maxColumnHint ≤ toColumn ∧ set.highestLine < 0xC000000 ∧ 99950 < toColumn ∧ toColumn ≤ 100000

/-- Handing out a column leaves the maps. -/
theorem handOut_maps (set : LineMaps) (r c : ℕ) : (set.handOut r c).2.maps = set.maps := by
  unfold LineMaps.handOut
  dsimp only
  split <;> rfl

/-- A column of the current line is handed out.
Source: `line-map.c` `linemap_position_for_column` (`r = r + to_column`)
Kind: L -/
theorem handOut_spec {set : LineMaps} (h : Wf set) {c : ℕ} (hc : c < 2 ^ set.last.columnBits) :
    Keeps set (set.handOut set.highestLine c).2 ∧
      sourceLine (set.handOut set.highestLine c).2.last (set.handOut set.highestLine c).2.highestLine =
        sourceLine set.last set.highestLine ∧
      (set.highestLine + c < 2 ^ 32 → Decodes (set.handOut set.highestLine c).2
        ⟨(set.handOut set.highestLine c).1, set.last.toFile, sourceLine set.last set.highestLine, c⟩) := by
  have hlt := h.location_lt
  have hle := h.line_le
  have hsame := h.same_line
  have hbits : 2 ^ set.last.columnBits ≤ 2 ^ 17 := Nat.pow_le_pow_right (by omega) h.bits_le
  have hout : set.handOut set.highestLine c = ((set.highestLine + c) % 2 ^ 32,
      if set.highestLocation ≤ (set.highestLine + c) % 2 ^ 32 then
        { set with highestLocation := (set.highestLine + c) % 2 ^ 32 } else set) := rfl
  by_cases hnew : set.highestLocation ≤ (set.highestLine + c) % 2 ^ 32
  · -- a new highest location: the sum did not wrap, since it would have come out below
    rw [if_pos hnew] at hout
    have hfit : set.highestLine + c < 2 ^ 32 := by omega
    rw [Nat.mod_eq_of_lt hfit] at hnew hout
    rw [hout]
    have hcore : Core { set with highestLocation := set.highestLine + c } :=
      { h.toCore with
        line_le := Nat.le_add_right _ _
        location_lt := hfit
        same_line := Nat.add_lt_add_left hc _ }
    refine ⟨⟨{ hcore with hint_eq := h.hint_eq }, rfl, ?_, hnew, Nat.le_succ _⟩, rfl, ?_⟩
    · intro e he
      have hmaps : LineMaps.maps { set with highestLocation := set.highestLine + c } = set.maps := rfl
      exact Decodes.mono hmaps hnew he
    · intro _
      exact hcore.decodes_column hc le_rfl
  · rw [if_neg hnew] at hout
    rw [hout]
    refine ⟨⟨h, rfl, fun _ he => he, le_rfl, Nat.le_succ _⟩, rfl, ?_⟩
    intro hfit
    rw [Nat.mod_eq_of_lt hfit] at hnew ⊢
    exact h.decodes_column hc (by omega)

/-- A column beyond the hint makes the current line start again with a new width.
Source: `line-map.c` `linemap_position_for_column` (`linemap_line_start`)
Kind: L -/
theorem lineStart_again {set : LineMaps} (h : Wf set) {c : ℕ} (hhint : set.maxColumnHint ≤ c)
    (hlow : set.highestLine < 0xC000000) :
    ∃ bits hint, columnChoice set.highestLocation (c + 50) = some (bits, hint) ∧
      linemapLineStart set (sourceLine set.last set.highestLine) (c + 50) =
        set.changeWidth (sourceLine set.last set.highestLine)
          (lineDelta set (sourceLine set.last set.highestLine)) bits hint := by
  have hsame := h.same_line
  have hpow : 2 ^ set.last.columnBits ≤ 2 ^ 17 := Nat.pow_le_pow_right (by omega) h.bits_le
  have hwide : 2 ^ set.last.columnBits ≤ c + 50 := by
    rcases h.hint_eq with heq | ⟨_, hbits⟩
    · omega
    · rw [hbits]
      omega
  have hneeds : needsMap set.last (lineDelta set (sourceLine set.last set.highestLine)) (c + 50) =
      .ok true := by
    unfold needsMap
    rw [lineDelta_self, if_neg (by omega), if_neg (by omega)]
    simp [hwide]
  obtain ⟨⟨bits, hint⟩, hchoice⟩ : ∃ w, columnChoice set.highestLocation (c + 50) = some w := by
    unfold columnChoice
    split
    · rw [if_neg (by omega)]
      exact ⟨_, rfl⟩
    · exact ⟨_, rfl⟩
  exact ⟨bits, hint, hchoice, lineStart_of_some (Nat.ne_of_gt h.used_pos) hneeds hchoice⟩

/-- **Columns**: a column that is not near the limit keeps the locations in use, and while there are few
locations the new one decodes to the current file and line and to the column.
Source: `line-map.c` `linemap_position_for_column`
Kind: P -/
theorem position_spec {set set' : LineMaps} (h : Wf set) {c r : ℕ} (hnear : ¬ NearLimit set c)
    (hcall : linemapPositionForColumn set c = .ok (r, set')) :
    Keeps set set' ∧
      sourceLine set'.last set'.highestLine = sourceLine set.last set.highestLine ∧
      (set.highestLocation < 0xC000000 → Decodes set'
        ⟨r, set.last.toFile, sourceLine set.last set.highestLine, issuedColumn set c⟩) := by
  have hlt := h.location_lt
  have hle := h.line_le
  have hpow : 2 ^ set.last.columnBits ≤ 2 ^ 17 := Nat.pow_le_pow_right (by omega) h.bits_le
  unfold linemapPositionForColumn at hcall
  dsimp only at hcall
  split at hcall
  case isTrue hhint =>
    split at hcall
    case isTrue hgive =>
      cases hcall
      refine ⟨⟨h, rfl, fun _ he => he, le_rfl, Nat.le_succ _⟩, rfl, ?_⟩
      intro hfew
      have hcolumn : issuedColumn set c = 0 := if_pos ⟨hhint, by omega⟩
      rw [hcolumn]
      exact h.decodes_column (by positivity) hle
    case isFalse hkeep =>
      have hsmall : c + 50 ≤ 100000 := by
        unfold NearLimit at hnear
        omega
      have hlow : set.highestLine < 0xC000000 := by omega
      have hsame := h.same_line
      obtain ⟨bits, hint, hchoice, hstart⟩ := lineStart_again h hhint hlow
      rw [hstart] at hcall
      obtain ⟨hbits, hhint', _, hholds⟩ := columnChoice_spec hchoice
      have hc : c < 2 ^ bits := by
        have := hholds hsmall (by omega)
        omega
      have hroom : ¬ set.leavesMap (lineDelta set (sourceLine set.last set.highestLine)) bits →
          set.highestLine + lineDelta set (sourceLine set.last set.highestLine) * 2 ^ bits < 2 ^ 32 := by
        intro _
        rw [lineDelta_self]
        omega
      rcases hchange : set.changeWidth (sourceLine set.last set.highestLine)
        (lineDelta set (sourceLine set.last set.highestLine)) bits hint with fault | ⟨r₁, set₁⟩
      · rw [hchange] at hcall
        cases hcall
      rw [hchange] at hcall
      obtain ⟨hkeeps, hr₁, hsource, hwidth, hnext⟩ :=
        changeWidth_spec h (sourceLine_lt _ _) hbits hhint' hroom hchange
      have hout : set₁.handOut r₁ c = (r, set') := Except.ok.inj hcall
      rw [lineDelta_self, Nat.zero_mul] at hnext
      rw [hr₁] at hsource hnext hout
      have hmaps := handOut_maps set₁ set₁.highestLine c
      obtain ⟨hkeeps', hline', hdecodes⟩ := handOut_spec hkeeps.wf (by rw [hwidth]; exact hc)
      rw [hout] at hmaps hkeeps' hline' hdecodes
      refine ⟨⟨hkeeps'.wf, hkeeps'.file_eq.trans hkeeps.file_eq, ?_,
        le_trans hkeeps.location_le hkeeps'.location_le, ?_⟩, hline'.trans hsource, ?_⟩
      · intro e he
        exact hkeeps'.decodes e (hkeeps.decodes e he)
      · exact le_trans (le_of_eq (congrArg List.length hmaps)) hkeeps.used_le
      · intro hfew
        have hcolumn : issuedColumn set c = c := if_neg (by omega)
        have hdec := hdecodes (by omega)
        rw [hkeeps.file_eq, hsource] at hdec
        rw [hcolumn]
        exact hdec
  case isFalse hhint =>
    cases hcall
    have hc : c < 2 ^ set.last.columnBits := by
      rcases h.hint_eq with heq | ⟨heq, _⟩ <;> omega
    obtain ⟨hkeeps, hline, hdecodes⟩ := handOut_spec h hc
    refine ⟨hkeeps, hline, ?_⟩
    intro hfew
    have hcolumn : issuedColumn set c = c := if_neg (by omega)
    rw [hcolumn]
    exact hdecodes (by omega)

/-- While there are few locations, a column is always handed out.
Source: `line-map.c` `linemap_position_for_column`
Kind: L -/
theorem position_ok {set : LineMaps} (h : Wf set) (hfew : set.highestLocation < 0xC000000) (c : ℕ) :
    ∃ r set', linemapPositionForColumn set c = .ok (r, set') := by
  have hle := h.line_le
  have habort : ¬ Aborts set := by
    rintro ⟨_, habort⟩
    have := h.start_le
    rw [Nat.mod_eq_of_lt (by omega)] at habort
    omega
  unfold linemapPositionForColumn
  dsimp only
  split
  case isTrue hhint =>
    split
    · exact ⟨_, _, rfl⟩
    · obtain ⟨bits, hint, -, hstart⟩ := lineStart_again h hhint (by omega)
      rw [hstart]
      unfold LineMaps.changeWidth
      split
      · obtain ⟨reason, hadd⟩ := @linemapAdd_rename set set.last.sysp
          (sourceLine set.last set.highestLine) set.last.toFile (h.file_ne _) habort
        rw [hadd]
        exact ⟨_, _, rfl⟩
      · exact ⟨_, _, rfl⟩
  case isFalse hhint => exact ⟨_, _, rfl⟩

/-! ## Runs -/

/-- A call; its numbers are of type `unsigned int`.
Source: `line-map.c` `linemap_add`, `linemap_line_start`, `linemap_position_for_column`, `linemap_lookup` -/
inductive Op
  | add (reason : LcReason) (sysp : BitVec 32) (toFile : Option String) (toLine : BitVec 32)
  | lineStart (toLine maxColumnHint : BitVec 32)
  | positionForColumn (toColumn : BitVec 32)
  | lookup (line : BitVec 32)

/-- A set with the file and line that are current and the locations handed out while fewer than
`0xC000000` were in use. The file is that of the last map returned by `linemap_add`; the line is that map's
or the one `linemap_line_start` was asked for. -/
structure Session where
  set : LineMaps
  current : Option (Option String × ℕ)
  issued : List Issued

/-- Nothing was called yet. Source: `line-map.c` `linemap_init`. -/
def Session.init : Session := { set := linemapInit, current := none, issued := [] }

/-- The locations on record after `loc` was returned for a column. -/
def Session.record (s : Session) (toColumn loc : ℕ) : List Issued :=
  match s.current with
  | some (file, line) =>
    if s.set.highestLocation < 0xC000000 then
      ⟨loc, file, line, issuedColumn s.set toColumn⟩ :: s.issued
    else s.issued
  | none => s.issued

/-- One call. -/
def step (s : Session) : Op → Except Failure Session
  | .add reason sysp toFile toLine => do
    let (map, set) ← linemapAdd s.set reason sysp.toNat toFile toLine.toNat
    let current := (map.map fun m => (m.toFile, m.toLine)) <|> s.current
    .ok { s with set := set, current := current }
  | .lineStart toLine maxColumnHint => do
    let (_, set) ← linemapLineStart s.set toLine.toNat maxColumnHint.toNat
    .ok { s with set := set, current := s.current.map fun now => (now.1, toLine.toNat) }
  | .positionForColumn toColumn => do
    let (loc, set) ← linemapPositionForColumn s.set toColumn.toNat
    .ok { s with set := set, issued := s.record toColumn.toNat loc }
  | .lookup line => do
    let (_, set) ← linemapLookup s.set line.toNat
    .ok { s with set := set }

/-- The calls of a list, one after the other. -/
def run (s : Session) : List Op → Except Failure Session
  | [] => .ok s
  | op :: ops => do
    let s ← step s op
    run s ops

/-- The condition on a call: fewer than `2 ^ 31` maps, no line start that wraps and no column near the
limit. -/
def StepOk (s : Session) : Op → Prop
  | .add _ _ _ _ => s.set.used < 2 ^ 31
  | .lineStart toLine maxColumnHint =>
    s.set.used < 2 ^ 31 ∧ LineStartFits s.set toLine.toNat maxColumnHint.toNat
  | .positionForColumn toColumn => s.set.used < 2 ^ 31 ∧ ¬ NearLimit s.set toColumn.toNat
  | .lookup _ => True

/-- Every call of a run meets the condition. -/
def RunOk (s : Session) : List Op → Prop
  | [] => True
  | op :: ops => StepOk s op ∧
    match step s op with
    | .ok s' => RunOk s' ops
    | .error _ => True

instance (set : LineMaps) (toLine hint : ℕ) : Decidable (LineStartFits set toLine hint) :=
  match hwidth : stayingWidth set toLine hint with
  | none => .isTrue (fun bits hbits => by rw [hwidth] at hbits; cases hbits)
  | some width =>
    decidable_of_iff (set.highestLine + lineDelta set toLine * 2 ^ width < 2 ^ 32)
      ⟨fun h bits hbits => by rw [hwidth] at hbits; cases hbits; exact h, fun h => h width hwidth⟩

instance (s : Session) (op : Op) : Decidable (StepOk s op) :=
  match op with
  | .add _ _ _ _ => inferInstanceAs (Decidable (_ < _))
  | .lineStart _ _ => inferInstanceAs (Decidable (_ ∧ LineStartFits _ _ _))
  | .positionForColumn _ => inferInstanceAs (Decidable (_ ∧ ¬ (_ ∧ _ ∧ _ ∧ _)))
  | .lookup _ => .isTrue trivial

/-- The condition on a run can be evaluated. -/
def decidableRunOk : (ops : List Op) → (s : Session) → Decidable (RunOk s ops)
  | [], _ => .isTrue trivial
  | op :: ops, s =>
    have : Decidable (match step s op with | .ok s' => RunOk s' ops | .error _ => True) :=
      match step s op with
      | .ok s' => decidableRunOk ops s'
      | .error _ => .isTrue trivial
    inferInstanceAs (Decidable (StepOk s op ∧ _))

instance (s : Session) (ops : List Op) : Decidable (RunOk s ops) := decidableRunOk ops s

/-- What holds between two calls: the locations on record decode, and the current line is the one at
`highestLine` until `linemap_line_start` has to return 0. -/
def Sound (s : Session) : Prop :=
  (s.set = linemapInit ∧ s.current = none ∧ s.issued = []) ∨
    (Wf s.set ∧ s.set.used ≤ 2 ^ 31 ∧ (∀ e ∈ s.issued, Decodes s.set e) ∧
      ∃ line, s.current = some (s.set.last.toFile, line) ∧
        (s.set.highestLocation ≤ 0xF0000000 → sourceLine s.set.last s.set.highestLine = line))

/-- `linemap_add` keeps a session sound. Source: `line-map.c` `linemap_add`. Kind: L -/
theorem step_add_sound {s s' : Session} (hs : Sound s) {reason : LcReason} {sysp toLine : BitVec 32}
    {toFile : Option String} (hok : StepOk s (.add reason sysp toFile toLine))
    (hstep : step s (.add reason sysp toFile toLine) = .ok s') : Sound s' := by
  have hready : Ready s.set := hs.elim (fun h => Or.inl h.1) (fun h => Or.inr h.1)
  have hdecodes : ∀ e ∈ s.issued, Decodes s.set e := by
    rcases hs with ⟨_, _, hissued⟩ | ⟨_, _, hdec, _⟩
    · rw [hissued]
      exact fun e he => absurd he List.not_mem_nil
    · exact hdec
  change (linemapAdd s.set reason sysp.toNat toFile toLine.toNat >>= _) = _ at hstep
  rcases hadd : linemapAdd s.set reason sysp.toNat toFile toLine.toNat with fault | ⟨map, set⟩
  · rw [hadd] at hstep
    cases hstep
  rw [hadd] at hstep
  cases hstep
  obtain ⟨habort, ⟨r, y, file, line, hline, hfile, heq⟩ | ⟨hdepth, rfl, rfl⟩⟩ :=
    linemapAdd_cases hready toLine.isLt hadd
  · have hmap : map = (s.set.install r y file line).1 := congrArg Prod.fst heq
    have hset : set = (s.set.install r y file line).2 := congrArg Prod.snd heq
    subst hmap hset
    right
    refine ⟨install_core hready habort hline hfile, ?_, ?_, line, ?_, ?_⟩
    · change (s.set.install r y file line).2.used ≤ _
      rw [install_used]
      exact hok
    · intro e he
      exact (hdecodes e he).install hready habort
    · rw [install_last]
      rfl
    · intro _
      change sourceLine (s.set.install r y file line).2.last _ = line
      rw [install_last, sourceLine_offset (q := 0) (c := 0)]
      · rw [Nat.zero_add]
        exact Nat.mod_eq_of_lt hline
      · rw [Nat.zero_mul]
        rfl
      · positivity
      · exact (install_core hready habort hline hfile).location_lt
  · rcases hs with ⟨hinit, _, _⟩ | ⟨hwf, hused, hdec, line, hcurrent, hline⟩
    · rw [hinit] at hdepth
      exact absurd rfl hdepth
    · right
      refine ⟨hwf.touch _ hwf.cache_lt, hused, ?_, line, hcurrent, hline⟩
      intro e he
      refine Decodes.mono ?_ ?_ (hdec e he)
      · rfl
      · exact le_rfl

/-- A call that keeps the set keeps the session sound. -/
theorem Keeps.sound {set : LineMaps} {s : Session} (hkeeps : Keeps s.set set)
    (hused : s.set.used < 2 ^ 31) {issued : List Issued} {line : ℕ}
    (hissued : ∀ e ∈ issued, Decodes set e)
    (hline : set.highestLocation ≤ 0xF0000000 → sourceLine set.last set.highestLine = line) :
    Sound { set := set, current := some (s.set.last.toFile, line), issued := issued } := by
  right
  refine ⟨hkeeps.wf, ?_, hissued, line, ?_, hline⟩
  · have := hkeeps.used_le
    change set.used ≤ _
    omega
  · rw [hkeeps.file_eq]

/-- `linemap_line_start` keeps a session sound. Source: `line-map.c` `linemap_line_start`. Kind: L -/
theorem step_lineStart_sound {s s' : Session} (hs : Sound s) {toLine hint : BitVec 32}
    (hok : StepOk s (.lineStart toLine hint)) (hstep : step s (.lineStart toLine hint) = .ok s') :
    Sound s' := by
  change (linemapLineStart s.set toLine.toNat hint.toNat >>= _) = _ at hstep
  rcases hcall : linemapLineStart s.set toLine.toNat hint.toNat with fault | ⟨r, set⟩
  · rw [hcall] at hstep
    cases hstep
  rw [hcall] at hstep
  cases hstep
  rcases hs with ⟨hinit, _, _⟩ | ⟨hwf, _, hdec, line, hcurrent, _⟩
  · rw [hinit] at hcall
    cases hcall
  · obtain ⟨hkeeps, hline⟩ := lineStart_spec hwf toLine.isLt hok.2 hcall
    rw [hcurrent]
    refine hkeeps.sound hok.1 (fun e he => hkeeps.decodes e (hdec e he)) ?_
    intro hlow
    obtain ⟨hr, hsource⟩ := hline (le_trans hkeeps.location_le hlow)
    rw [← hr]
    exact hsource

/-- `linemap_position_for_column` keeps a session sound: its location goes on record with what it decodes
to.
Source: `line-map.c` `linemap_position_for_column`
Kind: L -/
theorem step_position_sound {s s' : Session} (hs : Sound s) {toColumn : BitVec 32}
    (hok : StepOk s (.positionForColumn toColumn))
    (hstep : step s (.positionForColumn toColumn) = .ok s') : Sound s' := by
  change (linemapPositionForColumn s.set toColumn.toNat >>= _) = _ at hstep
  rcases hcall : linemapPositionForColumn s.set toColumn.toNat with fault | ⟨r, set⟩
  · rw [hcall] at hstep
    cases hstep
  rw [hcall] at hstep
  cases hstep
  rcases hs with ⟨hinit, hcurrent, hissued⟩ | ⟨hwf, _, hdec, line, hcurrent, hline⟩
  · -- before the first map a column is refused or given up, and nothing goes on record
    left
    rw [hinit] at hcall
    unfold linemapPositionForColumn at hcall
    rw [if_pos (show linemapInit.maxColumnHint ≤ _ from Nat.zero_le _)] at hcall
    split at hcall
    · cases hcall
      refine ⟨rfl, hcurrent, ?_⟩
      unfold Session.record
      rw [hcurrent]
      exact hissued
    · cases hcall
  · obtain ⟨hkeeps, hsame, hnew⟩ := position_spec hwf hok.2 hcall
    have hrecord : ∀ e ∈ s.record toColumn.toNat r, Decodes set e := by
      intro e he
      unfold Session.record at he
      rw [hcurrent] at he
      dsimp only at he
      split at he
      case isTrue hfew =>
        rcases List.mem_cons.mp he with rfl | he
        · rw [← hline (by omega)]
          exact hnew hfew
        · exact hkeeps.decodes e (hdec e he)
      case isFalse => exact hkeeps.decodes e (hdec e he)
    rw [hcurrent]
    refine hkeeps.sound hok.1 hrecord ?_
    intro hlow
    rw [hsame]
    exact hline (le_trans hkeeps.location_le hlow)

/-- `linemap_lookup` keeps a session sound: it moves the cache only. Source: `line-map.c` `linemap_lookup`. Kind: L -/
theorem step_lookup_sound {s s' : Session} (hs : Sound s) {line : BitVec 32}
    (hstep : step s (.lookup line) = .ok s') : Sound s' := by
  change (linemapLookup s.set line.toNat >>= _) = _ at hstep
  rcases hs with ⟨hinit, _, _⟩ | ⟨hwf, hused, hdec, cur, hcurrent, hline⟩
  · rw [hinit] at hstep
    cases hstep
  · have hcall : linemapLookup s.set line.toNat = .ok (s.set.get (lookupIndex s.set line.toNat),
        { s.set with cache := lookupIndex s.set line.toNat }) := by
      unfold linemapLookup
      rw [if_neg (Nat.ne_of_gt hwf.used_pos)]
    rw [hcall] at hstep
    cases hstep
    right
    refine ⟨hwf.touch _ (lookupIndex_lt hwf.toCore hused _), hused, ?_, cur, hcurrent, hline⟩
    intro e he
    refine Decodes.mono ?_ ?_ (hdec e he)
    · rfl
    · exact le_rfl

/-- **Every call** that meets the condition keeps a session sound. -/
theorem step_sound {s s' : Session} (hs : Sound s) {op : Op} (hok : StepOk s op)
    (hstep : step s op = .ok s') : Sound s' := by
  cases op with
  | add reason sysp toFile toLine => exact step_add_sound hs hok hstep
  | lineStart toLine hint => exact step_lineStart_sound hs hok hstep
  | positionForColumn toColumn => exact step_position_sound hs hok hstep
  | lookup line => exact step_lookup_sound hs hstep

/-- A call takes nothing off the record. -/
theorem step_issued {s s' : Session} {op : Op} (hstep : step s op = .ok s') {e : Issued}
    (he : e ∈ s.issued) : e ∈ s'.issued := by
  cases op with
  | add reason sysp toFile toLine =>
    change (linemapAdd s.set reason sysp.toNat toFile toLine.toNat >>= _) = _ at hstep
    rcases hcall : linemapAdd s.set reason sysp.toNat toFile toLine.toNat with fault | out <;>
      rw [hcall] at hstep <;> cases hstep
    exact he
  | lineStart toLine hint =>
    change (linemapLineStart s.set toLine.toNat hint.toNat >>= _) = _ at hstep
    rcases hcall : linemapLineStart s.set toLine.toNat hint.toNat with fault | out <;>
      rw [hcall] at hstep <;> cases hstep
    exact he
  | positionForColumn toColumn =>
    change (linemapPositionForColumn s.set toColumn.toNat >>= _) = _ at hstep
    rcases hcall : linemapPositionForColumn s.set toColumn.toNat with fault | out <;>
      rw [hcall] at hstep <;> cases hstep
    change e ∈ s.record toColumn.toNat out.1
    unfold Session.record
    split
    · split
      · exact List.mem_cons_of_mem _ he
      · exact he
    · exact he
  | lookup line =>
    change (linemapLookup s.set line.toNat >>= _) = _ at hstep
    rcases hcall : linemapLookup s.set line.toNat with fault | out <;>
      rw [hcall] at hstep <;> cases hstep
    exact he

/-- A run keeps a session sound and takes nothing off the record. -/
theorem run_sound {ops : List Op} {s s' : Session} (hs : Sound s) (hok : RunOk s ops)
    (hrun : run s ops = .ok s') : Sound s' ∧ ∀ e ∈ s.issued, e ∈ s'.issued := by
  induction ops generalizing s with
  | nil =>
    cases hrun
    exact ⟨hs, fun _ he => he⟩
  | cons op ops ih =>
    change (step s op >>= _) = _ at hrun
    rcases hstep : step s op with fault | mid
    · rw [hstep] at hrun
      cases hrun
    rw [hstep] at hrun
    obtain ⟨hstepok, hrest⟩ := hok
    rw [hstep] at hrest
    obtain ⟨hsound, hissued⟩ := ih (step_sound hs hstepok hstep) hrest hrun
    exact ⟨hsound, fun e he => hissued e (step_issued hstep he)⟩

/-- A sound session decodes all locations on record. -/
theorem Sound.decode {s : Session} (hs : Sound s) {e : Issued} (he : e ∈ s.issued) :
    decode s.set e.loc = .ok (e.file, e.line, e.column) := by
  rcases hs with ⟨_, _, hissued⟩ | ⟨hwf, hused, hdec, _⟩
  · rw [hissued] at he
    exact absurd he List.not_mem_nil
  · exact decode_eq hwf.toCore hused (hdec e he)

/-- **Locations decode to what they encode.** In every run from `linemap_init` whose calls meet the
condition, each location handed out while fewer than `0xC000000` were in use decodes to the file and line
that were current and to its column, then and after the rest of the run; and as long as so few are in use,
a location is handed out for every column.
Source: `line-map.c` `linemap_add`, `linemap_line_start`, `linemap_position_for_column`, `linemap_lookup`
Kind: C -/
theorem linemap_contract (ops more : List Op) (s s' : Session) (hok : RunOk .init ops)
    (hrun : run .init ops = .ok s) (hokmore : RunOk s more) (hmore : run s more = .ok s') :
    (∀ e ∈ s.issued, decode s.set e.loc = .ok (e.file, e.line, e.column) ∧
      decode s'.set e.loc = .ok (e.file, e.line, e.column)) ∧
    (s.current ≠ none → s.set.highestLocation < 0xC000000 → ∀ toColumn : BitVec 32,
      ∃ now, step s (.positionForColumn toColumn) = .ok now) := by
  have hinit : Sound .init := Or.inl ⟨rfl, rfl, rfl⟩
  obtain ⟨hs, _⟩ := run_sound hinit hok hrun
  obtain ⟨hs', hkept⟩ := run_sound hs hokmore hmore
  refine ⟨?_, ?_⟩
  · intro e he
    exact ⟨hs.decode he, hs'.decode (hkept e he)⟩
  · intro hcurrent hfew toColumn
    rcases hs with ⟨_, hnone, _⟩ | ⟨hwf, _, _, _⟩
    · exact absurd hnone hcurrent
    · obtain ⟨r, set', hcall⟩ := position_ok hwf hfew toColumn.toNat
      refine ⟨{ s with set := set', issued := s.record toColumn.toNat r }, ?_⟩
      change (linemapPositionForColumn s.set toColumn.toNat >>= _) = _
      rw [hcall]
      rfl

/-- Two files of which one includes the other, with columns on three lines.
Source: none: example -/
def includeRun : List Op :=
  [.add .enter 0 (some "a.c") 1, .lineStart 1 80, .positionForColumn 5, .positionForColumn 300,
    .add .enter 1 (some "b.h") 1, .lineStart 3 80, .positionForColumn 200000]

def leaveRun : List Op :=
  [.add .leave 0 none 0, .lineStart 2 80, .positionForColumn 7]

/-- The session after some calls, or the first one where a call fails.
Source: none: example -/
def sessionAfter (s : Session) (ops : List Op) : Session :=
  match run s ops with
  | .ok s' => s'
  | .error _ => s

/-- The contract at a run of ten calls: the columns of the first file still decode after the second file
was left, and column 200000 was given up.
Source: none: example
Kind: C -/
theorem linemap_contract_include :
    RunOk .init includeRun ∧
      (sessionAfter .init includeRun).issued =
        [⟨558, some "b.h", 3, 0⟩, ⟨301, some "a.c", 1, 300⟩, ⟨6, some "a.c", 1, 5⟩] ∧
      ∀ e ∈ (sessionAfter .init includeRun).issued,
        decode (sessionAfter (sessionAfter .init includeRun) leaveRun).set e.loc =
          .ok (e.file, e.line, e.column) := by
  have hok : RunOk .init includeRun := by decide +kernel
  refine ⟨hok, by decide +kernel, ?_⟩
  intro e he
  exact ((linemap_contract includeRun leaveRun _ _ hok rfl (by decide +kernel) rfl).1 e he).2

/-- **A column near the limit**: column 99960 of line 1 is handed out as a location that decodes to line
99961, column 0.
Source: `line-map.c` `linemap_position_for_column` (`to_column + 50`)
Kind: C -/
theorem position_spills_into_line :
    ∃ s, run .init [.add .enter 0 (some "a.c") 1, .lineStart 1 80, .positionForColumn 99960] = .ok s ∧
      s.issued = [⟨99961, some "a.c", 1, 99960⟩] ∧
      decode s.set 99961 = .ok (some "a.c", 99961, 0) := by
  refine ⟨_, rfl, ?_, ?_⟩
  · decide +kernel
  · decide +kernel

end GccCore.Cpp.Linemaps
