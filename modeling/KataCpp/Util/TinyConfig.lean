import KataCpp.Core.Bytes
import KataCpp.Core.ComparatorOrder
import KataCpp.Core.MachineInt
import KataCpp.Text.WordRank

/-!
# Configuration items

`TinyConfig` keeps values under a group and a key, in an ordered map that is
given `KeyLessComparator`.  The comparator compares the groups and, if these are
equal, the keys; it is a strict total order, so the map is one from pairs of
group and key.

There are two ways to read a value.  `GetConfigItem` returns it as a string,
and `HasConfigItem` copies it to a buffer, but not the NUL behind it: it limits
the number of bytes to copy to the size of the value.
-/

namespace KataCpp

open Bytes MachineInt

structure ConfigItemKey where
  groupName : ByteString
  keyName : ByteString
  deriving DecidableEq

attribute [ext] ConfigItemKey

/-- `std::string::compare`: negative, zero or positive as the first string is
before, equal to or behind the second one in the order of the bytes. -/
def stringCompare : ByteString → ByteString → ℤ
  | [], [] => 0
  | [], _ :: _ => -1
  | _ :: _, [] => 1
  | first :: left, second :: right =>
      if first.toNat < second.toNat then -1
      else if second.toNat < first.toNat then 1
      else stringCompare left right

def keyLessComparator (item1 item2 : ConfigItemKey) : Bool :=
  let ret := stringCompare item1.groupName item2.groupName
  if ret = 0 then stringCompare item1.keyName item2.keyName < 0
  else ret < 0

def KeyLess (item1 item2 : ConfigItemKey) : Prop :=
  keyLessComparator item1 item2 = true

instance : DecidableRel KeyLess := fun item1 item2 =>
  inferInstanceAs (Decidable (keyLessComparator item1 item2 = true))

theorem stringCompare_eq_zero_iff (left right : ByteString) :
    stringCompare left right = 0 ↔ left = right := by
  fun_induction stringCompare with
  | case1 => simp
  | case2 => simp
  | case3 => simp
  | case4 first left second right hless =>
      have hdifferent : first ≠ second := by
        rintro rfl
        exact Nat.lt_irrefl _ hless
      simp [hdifferent]
  | case5 first left second right hless hgreater =>
      have hdifferent : first ≠ second := by
        rintro rfl
        exact Nat.lt_irrefl _ hgreater
      simp [hdifferent]
  | case6 first left second right hless hgreater ih =>
      have hequal : first = second := UInt8.toNat_inj.mp (by omega)
      simp [ih, hequal]

theorem stringCompare_swap (left right : ByteString) :
    stringCompare right left = -stringCompare left right := by
  fun_induction stringCompare left right with
  | case1 => rfl
  | case2 => rfl
  | case3 => rfl
  | case4 first left second right hless =>
      rw [stringCompare, if_neg (by omega), if_pos hless]
      rfl
  | case5 first left second right hless hgreater =>
      rw [stringCompare, if_pos hgreater]
  | case6 first left second right hless hgreater ih =>
      rw [stringCompare, if_neg hgreater, if_neg hless, ih]

theorem stringCompare_cons_neg_iff (first second : UInt8)
    (left right : ByteString) :
    stringCompare (first :: left) (second :: right) < 0 ↔
      first.toNat < second.toNat ∨
        first.toNat = second.toNat ∧ stringCompare left right < 0 := by
  rw [stringCompare]
  split
  · next hless => simp [hless]
  · next hless =>
      split
      · next hgreater => simp [hless, hgreater.ne']
      · next hgreater =>
          have hequal : first.toNat = second.toNat := by omega
          simp [hequal]

theorem stringCompare_trans {left middle right : ByteString}
    (hfirst : stringCompare left middle < 0)
    (hsecond : stringCompare middle right < 0) :
    stringCompare left right < 0 := by
  induction left generalizing middle right with
  | nil =>
      cases right with
      | nil => cases middle <;> simp [stringCompare] at hfirst hsecond
      | cons third right => simp [stringCompare]
  | cons first left ih =>
      cases middle with
      | nil => simp [stringCompare] at hfirst
      | cons second middle =>
          cases right with
          | nil => simp [stringCompare] at hsecond
          | cons third right =>
              rw [stringCompare_cons_neg_iff] at hfirst hsecond ⊢
              rcases hfirst with hless | ⟨hsame, hfirst⟩
              · exact .inl (by omega)
              · rcases hsecond with hless | ⟨hsame', hsecond⟩
                · exact .inl (by omega)
                · exact .inr ⟨hsame.trans hsame', ih hfirst hsecond⟩

theorem keyLess_iff (item1 item2 : ConfigItemKey) :
    KeyLess item1 item2 ↔
      stringCompare item1.groupName item2.groupName < 0 ∨
        item1.groupName = item2.groupName ∧
          stringCompare item1.keyName item2.keyName < 0 := by
  rw [KeyLess, keyLessComparator]
  by_cases hgroup : item1.groupName = item2.groupName
  · have hzero : stringCompare item2.groupName item2.groupName = 0 :=
      (stringCompare_eq_zero_iff _ _).mpr rfl
    simp [hgroup, hzero]
  · have hnonzero := mt (stringCompare_eq_zero_iff _ _).mp hgroup
    simp [hgroup, hnonzero]

instance : IsStrictTotalOrder ConfigItemKey KeyLess where
  irrefl := by
    intro item hless
    rw [keyLess_iff] at hless
    simp [(stringCompare_eq_zero_iff _ _).mpr rfl] at hless
  trans := by
    intro item1 item2 item3 hfirst hsecond
    rw [keyLess_iff] at hfirst hsecond ⊢
    rcases hfirst with hgroup | ⟨hsame, hkey⟩
    · rcases hsecond with hgroup' | ⟨hsame', -⟩
      · exact .inl (stringCompare_trans hgroup hgroup')
      · exact .inl (hsame' ▸ hgroup)
    · rcases hsecond with hgroup' | ⟨hsame', hkey'⟩
      · exact .inl (hsame ▸ hgroup')
      · exact .inr ⟨hsame.trans hsame', stringCompare_trans hkey hkey'⟩
  trichotomous := by
    intro item1 item2 hless hgreater
    rw [keyLess_iff, not_or, not_and] at hless hgreater
    have hgroups := stringCompare_swap item1.groupName item2.groupName
    have hgroup : item1.groupName = item2.groupName :=
      (stringCompare_eq_zero_iff _ _).mp (by omega)
    have hkeys := stringCompare_swap item1.keyName item2.keyName
    have hless' := hless.2 hgroup
    have hgreater' := hgreater.2 hgroup.symm
    have hkey : item1.keyName = item2.keyName :=
      (stringCompare_eq_zero_iff _ _).mp (by omega)
    cases item1
    cases item2
    simp_all

abbrev ConfigItemMap :=
  Std.ExtTreeMap ConfigItemKey ByteString (cmpUsing KeyLess)

structure TinyConfig where
  configItemMap : ConfigItemMap

namespace TinyConfig

def construct : TinyConfig := ⟨∅⟩

/-- The `size_t` size of the map converted to `int`. -/
def size (config : TinyConfig) : ℤ := wrap32 config.configItemMap.size

def addConfigItem (config : TinyConfig) (groupName keyName value : ByteString) :
    TinyConfig where
  configItemMap := config.configItemMap.insert ⟨groupName, keyName⟩ value

def getConfigItem (config : TinyConfig) (groupName keyName : ByteString)
    (aDefault : ByteString) : ByteString :=
  match config.configItemMap[(⟨groupName, keyName⟩ : ConfigItemKey)]? with
  | some value => value
  | none => aDefault

/-- `HasConfigItem`, with the buffer after the call. -/
def hasConfigItem (config : TinyConfig) (groupName keyName : ByteString)
    (szDest : Option OutBuffer) (nDest : ℤ) : Bool × Option OutBuffer :=
  match config.configItemMap[(⟨groupName, keyName⟩ : ConfigItemKey)]? with
  | none => (false, szDest)
  | some value =>
      match szDest with
      | none => (true, none)
      | some dest =>
          if nDest > 0 then
            let nSize := wrap32 value.length
            let nDest := if nDest > nSize then nSize else nDest
            (true, some (dest.strncpy value (asSize nDest)))
          else (true, some dest)

structure Item where
  groupName : ByteString
  keyName : ByteString
  value : ByteString
  deriving DecidableEq

def addItem (config : TinyConfig) (item : Item) : TinyConfig :=
  config.addConfigItem item.groupName item.keyName item.value

def addItems (items : List Item) : TinyConfig := items.foldl addItem construct

/-- The value of the last item under a group and a key. -/
def lastValue (items : List Item) (groupName keyName : ByteString) :
    Option ByteString :=
  (items.reverse.find? fun item =>
    item.groupName = groupName ∧ item.keyName = keyName).map Item.value

/-- The pairs of group and key among the items. -/
def distinctKeys (items : List Item) : Finset ConfigItemKey :=
  (items.map fun item => ⟨item.groupName, item.keyName⟩).toFinset

/-! ## The store as a map from groups and keys -/

theorem addItems_concat (items : List Item) (item : Item) :
    addItems (items ++ [item]) = (addItems items).addItem item := by
  rw [addItems, List.foldl_append]
  rfl

theorem lastValue_concat (items : List Item) (item : Item)
    (groupName keyName : ByteString) :
    lastValue (items ++ [item]) groupName keyName =
      if item.groupName = groupName ∧ item.keyName = keyName then
        some item.value
      else lastValue items groupName keyName := by
  rw [lastValue, List.reverse_concat, List.find?_cons]
  by_cases hitem : item.groupName = groupName ∧ item.keyName = keyName
  · simp [hitem]
  · simp only [hitem, decide_false, if_false]
    rfl

/-- The map holds the last value for every pair of group and key. -/
theorem addItems_getElem? (items : List Item)
    (groupName keyName : ByteString) :
    (addItems items).configItemMap[(⟨groupName, keyName⟩ : ConfigItemKey)]? =
      lastValue items groupName keyName := by
  induction items using List.reverseRecOn with
  | nil => simp [addItems, construct, lastValue]
  | append_singleton items item ih =>
      rw [addItems_concat, lastValue_concat, addItem, addConfigItem,
        Std.ExtTreeMap.getElem?_insert, ih]
      simp only [Std.LawfulEqCmp.compare_eq_iff_eq, ConfigItemKey.mk.injEq]

/-- The map has an entry for every pair that was added. -/
theorem addItems_size (items : List Item) :
    (addItems items).configItemMap.size = (distinctKeys items).card := by
  have hmem : ∀ key : ConfigItemKey,
      key ∈ (addItems items).configItemMap.keys.toFinset ↔
        key ∈ distinctKeys items := by
    intro key
    rw [List.mem_toFinset, Std.ExtTreeMap.mem_keys,
      Std.ExtTreeMap.mem_iff_isSome_getElem?, addItems_getElem?, lastValue,
      Option.isSome_map, List.find?_isSome, distinctKeys, List.mem_toFinset,
      List.mem_map]
    simp [ConfigItemKey.ext_iff]
  have hkeys : (addItems items).configItemMap.keys.toFinset =
      distinctKeys items := Finset.ext hmem
  rw [← hkeys, List.toFinset_card_of_nodup Std.ExtTreeMap.nodup_keys,
    Std.ExtTreeMap.length_keys]

theorem getConfigItem_eq (items : List Item)
    (groupName keyName aDefault : ByteString) :
    (addItems items).getConfigItem groupName keyName aDefault =
      (lastValue items groupName keyName).getD aDefault := by
  rw [getConfigItem, addItems_getElem?]
  cases lastValue items groupName keyName <;> rfl

/-- Items of other groups do not matter. -/
theorem lastValue_filter (items : List Item)
    (groupName keyName : ByteString) :
    lastValue (items.filter fun item => item.groupName = groupName) groupName
        keyName =
      lastValue items groupName keyName := by
  rw [lastValue, lastValue, ← List.filter_reverse, List.find?_filter]
  congr 2
  funext item
  by_cases hgroup : item.groupName = groupName
  · simp [hgroup]
  · simp [hgroup]

/-- The comparator orders the pairs totally, a pair has the value of the last
item under it, whatever the other groups hold, and the size is the number of
pairs, as an `int`. -/
theorem addItems_reads_last (items : List Item) :
    IsStrictTotalOrder ConfigItemKey KeyLess ∧
      (addItems items).size = wrap32 (distinctKeys items).card ∧
      ∀ groupName keyName aDefault : ByteString,
        (addItems items).getConfigItem groupName keyName aDefault =
            (lastValue items groupName keyName).getD aDefault ∧
          (addItems (items.filter fun item => item.groupName = groupName)
              ).getConfigItem groupName keyName aDefault =
            (addItems items).getConfigItem groupName keyName aDefault := by
  refine ⟨inferInstance, ?_, ?_⟩
  · rw [size, addItems_size]
  · intro groupName keyName aDefault
    constructor
    · exact getConfigItem_eq items groupName keyName aDefault
    · rw [getConfigItem_eq, getConfigItem_eq, lastValue_filter]

def numberedItems (count : ℕ) : List Item :=
  (List.range count).map fun index => ⟨ascii "misc", WordBank.letters index, []⟩

theorem card_numberedItems (count : ℕ) :
    (distinctKeys (numberedItems count)).card = count := by
  have hkeys : Function.Injective fun index =>
      (⟨ascii "misc", WordBank.letters index⟩ : ConfigItemKey) := by
    intro first second hequal
    exact WordBank.letters_injective (congrArg ConfigItemKey.keyName hequal)
  rw [distinctKeys, numberedItems, List.map_map]
  exact (List.toFinset_card_of_nodup (List.nodup_range.map hkeys)).trans
    (by rw [List.length_map, List.length_range])

/-- The size of a map with 2³¹ items comes out negative. -/
theorem size_numberedItems :
    (addItems (numberedItems (2 ^ 31))).size ≠
      (distinctKeys (numberedItems (2 ^ 31))).card := by
  have hnegative : wrap32 (2 ^ 31 : ℕ) ≠ (2 ^ 31 : ℕ) := by decide
  rw [size, addItems_size, card_numberedItems]
  exact hnegative

/-! ## The copy in a buffer -/

/-- After `HasConfigItem` the buffer has the C string that `GetConfigItem`
returns, and no byte was written behind the space for it. -/
def CopiesValue (config : TinyConfig) (groupName keyName : ByteString)
    (memory : Memory) (nDest : ℤ) : Prop :=
  ∃ dest : OutBuffer,
    config.hasConfigItem groupName keyName (some ⟨memory, []⟩) nDest =
        (true, some dest) ∧
      (∃ text : CString, text.StoredIn dest.bytes ∧
        text.bytes = config.getConfigItem groupName keyName []) ∧
      ∀ offset ∈ dest.touched, (offset : ℤ) < nDest

section Copy

variable {config : TinyConfig} {groupName keyName value : ByteString}
variable {memory : Memory} {nDest : ℤ}

/-- A buffer that has more space than the value gets the bytes of the value. -/
theorem hasConfigItem_writes
    (hvalue : config.configItemMap[(⟨groupName, keyName⟩ : ConfigItemKey)]? =
      some value)
    (hclean : 0 ∉ value) (hspace : value.length < nDest)
    (hint : nDest < 2 ^ 31) (dest : OutBuffer) :
    config.hasConfigItem groupName keyName (some dest) nDest =
      (true, some (dest.writes 0 value)) := by
  have hsize : wrap32 value.length = value.length := wrap32_natCast (by omega)
  have hpositive : nDest > 0 := by omega
  simp only [hasConfigItem, hvalue]
  rw [if_pos hpositive, hsize, if_pos hspace, asSize_natCast (by omega),
    dest.strncpy_length hclean]

/-- A copy that agrees with the value needs a NUL that already was where the
value ends in the buffer: the byte there is not written. -/
theorem terminated_of_copiesValue
    (hvalue : config.configItemMap[(⟨groupName, keyName⟩ : ConfigItemKey)]? =
      some value)
    (hclean : 0 ∉ value) (hspace : value.length < nDest)
    (hint : nDest < 2 ^ 31)
    (hcopies : config.CopiesValue groupName keyName memory nDest) :
    memory value.length = 0 := by
  obtain ⟨dest, hcopied, ⟨text, htext, hsame⟩, -⟩ := hcopies
  rw [hasConfigItem_writes hvalue hclean hspace hint] at hcopied
  cases hcopied
  have hnul := htext.2
  rw [hsame, getConfigItem, hvalue] at hnul
  rwa [OutBuffer.bytes_writes_of_le _ (Nat.zero_add _).le] at hnul

/-- The two ways to read a value agree when a NUL already was where the value
ends in the buffer. -/
theorem copiesValue_iff
    (hvalue : config.configItemMap[(⟨groupName, keyName⟩ : ConfigItemKey)]? =
      some value)
    (hclean : 0 ∉ value) (hspace : value.length < nDest)
    (hint : nDest < 2 ^ 31) :
    config.CopiesValue groupName keyName memory nDest ↔
      memory value.length = 0 := by
  constructor
  · exact terminated_of_copiesValue hvalue hclean hspace hint
  · intro hnul
    let dest : OutBuffer := ⟨memory, []⟩
    have hstored :
        (⟨value, hclean⟩ : CString).StoredIn (dest.writes 0 value).bytes := by
      rw [CString.storedIn_iff (dest.holds_writes 0 value),
        dest.bytes_writes_of_le (Nat.zero_add _).le]
      exact hnul
    have hget : value = config.getConfigItem groupName keyName [] := by
      rw [getConfigItem, hvalue]
    refine ⟨dest.writes 0 value,
      hasConfigItem_writes hvalue hclean hspace hint dest,
      ⟨⟨value, hclean⟩, hstored, hget⟩, ?_⟩
    intro offset hoffset
    rw [OutBuffer.mem_touched_writes] at hoffset
    rcases hoffset with hbefore | hwritten
    · cases hbefore
    · omega

end Copy

def portItems : List Item := [⟨ascii "misc", ascii "port", ascii "9090"⟩]

theorem portItems_getElem? :
    (addItems portItems).configItemMap[
        (⟨ascii "misc", ascii "port"⟩ : ConfigItemKey)]? =
      some (ascii "9090") := by
  rw [addItems_getElem?]
  decide

theorem copiesValue_iff_port :
    (addItems portItems).CopiesValue (ascii "misc") (ascii "port") (fun _ => 0)
      256 :=
  (copiesValue_iff portItems_getElem? (by decide) (by decide) (by decide)).mpr
    rfl

/-- In a buffer filled with `x` the value is followed by an `x`. -/
theorem copiesValue_port_filled :
    ¬ (addItems portItems).CopiesValue (ascii "misc") (ascii "port")
      (fun _ => 120) 256 := by
  intro hcopies
  have hnul := terminated_of_copiesValue portItems_getElem? (by decide)
    (by decide) (by decide) hcopies
  exact absurd hnul (by decide)

end TinyConfig

end KataCpp
