import Bx.Ash.Lexer
import Bx.Kit.BucketTable
import Mathlib.Data.List.Induction
import Mathlib.Data.List.TakeWhile
import Mathlib.Data.Nat.Bitwise

/-!
# The shell's aliases

The alias table of `src/applets/shell/ash/aliases.c`: chained buckets by the hash of the name. A pointer to an alias is
the chain from it on. Memory, and what the lexer says about the value as a fragment, are up to each call.
-/

namespace Bx.Ash.Aliases

open Bx.Kit Bx.Ash.Lexer List

variable (word : Lexer.Word) (hash : UInt64)

def sizeMax : Nat := 2 ^ 64 - 1

def minBuckets : Nat := 16

def pointerSize : Nat := 8

structure Alias where
  referenceCount : Nat
  name : CStr
  value : CStr
  nameLength : Nat
  valueLength : Nat
  hash : UInt64
  valueEndsBlank : Bool
  localeSensitive : Bool
  requiresTail : Bool
  requiresExtglobTail : Bool
  deriving DecidableEq

abbrev Chain := List Alias

structure AliasTable where
  buckets : Buckets Alias
  count : Nat

abbrev AliasTable.bucketCount (table : AliasTable) : Nat := table.buckets.length

/-! ## Names -/

def aliasHashBytes (text : CStr) : UInt64 :=
  text.foldl (fun hash ch => (hash ^^^ ch.toNat.toUInt8.toUInt64) * 1099511628211) hash

def hashBasis : UInt64 := 14695981039346656037

def aliasHash (name : CStr) : UInt64 := aliasHashBytes hashBasis name

def aliasBucket (bucketCount : Nat) : Nat := hash.toNat &&& (bucketCount - 1)

def forbidden : CStr :=
  ['/', '$', backquote, '=', ' ', '\t', '\r', '\n', '\\', singleQuote, doubleQuote, '(', ')', '<', '>', ';', '&', '|']

def aliasNameValid (name : CStr) : Bool := name ≠ [] && name.all fun ch => ch ∉ forbidden

/-! ## Looking up -/

def aliasTableShapeValid (table : AliasTable) : Bool :=
  minBuckets ≤ table.bucketCount && table.bucketCount &&& (table.bucketCount - 1) = 0 && table.count ≠ 0

def AliasTable.chain (table : AliasTable) (hash : UInt64) : Chain :=
  (table.buckets[aliasBucket hash table.bucketCount]?).getD []

def aliasFindKey (name : CStr) (length : Nat) (hash : UInt64) : Chain → Chain
  | [] => []
  | entry :: next =>
    if entry.hash = hash ∧ entry.nameLength = length ∧ entry.name = name then entry :: next
    else aliasFindKey name length hash next

def aliasFind (table : Option AliasTable) (name : CStr) : Chain :=
  match table with
  | none => []
  | some table =>
    if aliasTableShapeValid table then
      aliasFindKey name name.length (aliasHash name) (table.chain (aliasHash name))
    else []

/-- `ash_alias_value` of what is found -/
def aliasLookup (table : Option AliasTable) (name : CStr) : Option CStr :=
  (aliasFind table name).head?.map (·.value)

def wordPartIsQuoted (part : WordPart) : Bool := part.quote ≠ .none

def wordKeyFrom (hash : UInt64) (length : Nat) : Lexer.Word → Option (UInt64 × Nat)
  | [] => if length ≠ 0 then some (hash, length) else none
  | part :: parts =>
    if part.kind ≠ .text ∨ wordPartIsQuoted part = true ∨ part.text.length > sizeMax - length then none
    else wordKeyFrom (aliasHashBytes hash part.text) (length + part.text.length) parts

def aliasWordKey : Option (UInt64 × Nat) := wordKeyFrom hashBasis 0 word

def wordMatchesFrom (entry : Alias) (offset : Nat) : Lexer.Word → Bool
  | [] => offset = entry.nameLength
  | part :: parts =>
    if part.text.length ≠ 0 ∧ (entry.name.drop offset).take part.text.length ≠ part.text then false
    else wordMatchesFrom entry (offset + part.text.length) parts

def aliasWordMatches (entry : Alias) (word : Lexer.Word) : Bool := wordMatchesFrom entry 0 word

def aliasFindWordKey (word : Lexer.Word) (length : Nat) (hash : UInt64) : Chain → Chain
  | [] => []
  | entry :: next =>
    if entry.hash = hash ∧ entry.nameLength = length ∧ aliasWordMatches entry word = true then entry :: next
    else aliasFindWordKey word length hash next

def aliasFindWord (table : Option AliasTable) (word : Lexer.Word) : Chain :=
  match table with
  | none => []
  | some table =>
    if aliasTableShapeValid table then
      match aliasWordKey word with
      | none => []
      | some (hash, length) => aliasFindWordKey word length hash (table.chain hash)
    else []

/-! ## Defining -/

inductive FragmentResult
  | selfContained
  | needsTail
  | error
  deriving DecidableEq

/-- What a definition meets: what the value is as a fragment without and with
extended patterns, and which allocations succeed. -/
structure DefineEnv where
  fragment : FragmentResult := .selfContained
  extglobFragment : FragmentResult := .selfContained
  aliasAllocated : Bool := true
  nameCopied : Bool := true
  valueCopied : Bool := true
  tableAllocated : Bool := true
  bucketsAllocated : Bool := true
  rehashAllocated : Bool := true

section
variable (env : DefineEnv)

def aliasTableCreate : Option AliasTable :=
  if env.tableAllocated && env.bucketsAllocated then some { buckets := replicate minBuckets [], count := 0 }
  else none

def aliasTableReserve (table : AliasTable) : Option AliasTable :=
  let threshold := table.bucketCount - table.bucketCount / 4
  if table.count < threshold then some table
  else if table.bucketCount > sizeMax / 2 ∨ table.bucketCount * 2 > sizeMax / pointerSize then none
  else if env.rehashAllocated then
    let newCount := table.bucketCount * 2
    some { table with
      buckets := table.buckets.flatten.foldl
        (fun buckets entry => buckets.modify (aliasBucket entry.hash newCount) (entry :: ·))
        (replicate newCount []) }
  else none

def valueEndsBlankBytes (value : CStr) : Bool :=
  match value.getLast? with
  | none => false
  | some ch => ch = ' ' || ch = '\t'

def valueLocaleSensitive (value : CStr) : Bool := value.any fun ch => 0x80 ≤ ch.toNat

def aliasCreate (name value : CStr) : Option Alias :=
  if env.fragment = .error ∨ env.extglobFragment = .error then none
  else if env.aliasAllocated && env.nameCopied && env.valueCopied then
    some
      { referenceCount := 1
        name := name
        value := value
        nameLength := name.length
        valueLength := value.length
        hash := aliasHash name
        valueEndsBlank := valueEndsBlankBytes value
        localeSensitive := valueLocaleSensitive value
        requiresTail := env.fragment = .needsTail
        requiresExtglobTail := env.extglobFragment = .needsTail }
  else none

def replaceLink (existing : Chain) (candidate : Alias) : Chain → Chain
  | [] => []
  | entry :: next =>
    if entry :: next = existing then candidate :: next else entry :: replaceLink existing candidate next

/-- `ash_alias_define` of a name that has no alias yet -/
def aliasInsert (table : Option AliasTable) (candidate : Alias) : Option AliasTable × Bool :=
  match table <|> aliasTableCreate env with
  | none => (table, false)
  | some active =>
    match aliasTableReserve env active with
    | none => (table, false)
    | some active =>
      let bucket := aliasBucket candidate.hash active.bucketCount
      (some { buckets := active.buckets.modify bucket (candidate :: ·), count := active.count + 1 }, true)

def aliasDefine (table : Option AliasTable) (name value : CStr) : Option AliasTable × Bool :=
  if aliasNameValid name then
    match aliasCreate env name value with
    | none => (table, false)
    | some candidate =>
      match aliasFind table name, table with
      | existing :: next, some active =>
        let bucket := aliasBucket existing.hash active.bucketCount
        (some { active with buckets := active.buckets.modify bucket (replaceLink (existing :: next) candidate) }, true)
      | _, _ => aliasInsert env table candidate
  else (table, false)

end

def unlinkKey (name : CStr) (length : Nat) (hash : UInt64) : Chain → Option Chain
  | [] => none
  | entry :: next =>
    if entry.hash = hash ∧ entry.nameLength = length ∧ entry.name = name then some next
    else (unlinkKey name length hash next).map (entry :: ·)

def aliasUnset (table : Option AliasTable) (name : CStr) : Option AliasTable × Bool :=
  match table with
  | none => (none, false)
  | some active =>
    match unlinkKey name name.length (aliasHash name) (active.chain (aliasHash name)) with
    | none => (some active, false)
    | some chain =>
      let bucket := aliasBucket (aliasHash name) active.bucketCount
      let count := active.count - 1
      (if count = 0 then none else some { buckets := active.buckets.set bucket chain, count := count }, true)

def aliasesDestroy (_table : Option AliasTable) : Option AliasTable := none

/-- What is checked of each alias of a bucket; that the alias itself is found, no copy, is
that the chain from it on is. -/
def chainInvariants (table : AliasTable) (bucket : Nat) : Chain → Bool
  | [] => true
  | entry :: next =>
    entry.referenceCount ≠ 0 && aliasNameValid entry.name && entry.name.length = entry.nameLength &&
      entry.value.length = entry.valueLength && entry.localeSensitive = valueLocaleSensitive entry.value &&
      aliasHash entry.name = entry.hash && aliasBucket entry.hash table.bucketCount = bucket &&
      entry.valueEndsBlank = valueEndsBlankBytes entry.value && aliasFind (some table) entry.name = entry :: next &&
      chainInvariants table bucket next

def aliasesInvariants (table : Option AliasTable) : Bool :=
  match table with
  | none => true
  | some table =>
    aliasTableShapeValid table &&
      (table.buckets.zipIdx.all fun bucket => chainInvariants table bucket.2 bucket.1) &&
      table.buckets.flatten.length = table.count

/-! ## Runs -/

inductive AliasOp
  | define (env : DefineEnv) (name value : CStr)
  | unset (name : CStr)
  | unsetAll
  | find (name : CStr)
  | findWord (word : Lexer.Word)

def AliasOp.apply (table : Option AliasTable) : AliasOp → Option AliasTable × Bool
  | .define env name value => aliasDefine env table name value
  | .unset name => aliasUnset table name
  | .unsetAll => (aliasesDestroy table, true)
  | .find name => (table, !(aliasFind table name).isEmpty)
  | .findWord word => (table, !(aliasFindWord table word).isEmpty)

abbrev RunState := Option AliasTable × List (AliasOp × Bool)

def step (state : RunState) (op : AliasOp) : RunState :=
  ((op.apply state.1).1, state.2 ++ [(op, (op.apply state.1).2)])

variable (ops : List AliasOp)

def run : RunState := ops.foldl step (none, [])

def said (name : CStr) : AliasOp × Bool → Option (Option CStr)
  | (.define _ defined value, true) => if defined = name then some (some value) else none
  | (.unset removed, _) => if removed = name then some none else none
  | (.unsetAll, _) => some none
  | _ => none

/-- The value of the last successful definition that no removal of the name follows -/
def lastDefined (name : CStr) (history : List (AliasOp × Bool)) : Option CStr :=
  (history.filterMap (said name)).getLast?.join

/-! ## What a table keeps -/

abbrev nameHash (name : CStr) : Nat := (aliasHash name).toNat

structure WellFormed (entry : Alias) : Prop where
  referenced : entry.referenceCount ≠ 0
  named : aliasNameValid entry.name = true
  nameLength : entry.nameLength = entry.name.length
  valueLength : entry.valueLength = entry.value.length
  hash : entry.hash = aliasHash entry.name
  endsBlank : entry.valueEndsBlank = valueEndsBlankBytes entry.value
  locale : entry.localeSensitive = valueLocaleSensitive entry.value

structure Sound (table : AliasTable) : Prop where
  power : ∃ k, table.bucketCount = 2 ^ k
  min : minBuckets ≤ table.bucketCount
  wf : ∀ entry ∈ table.buckets.flatten, WellFormed entry
  placed : IsTable Alias.name nameHash table.buckets
  count : table.count = table.buckets.flatten.length

def Valid : Option AliasTable → Prop
  | none => True
  | some table => Sound table ∧ table.count ≠ 0

variable {table : AliasTable} {t : Option AliasTable} {entry candidate existing : Alias} {chain next : Chain}
  {name value : CStr} {env : DefineEnv}

theorem aliasBucket_eq {bucketCount : Nat} (h : ∃ k, bucketCount = 2 ^ k) (hash : UInt64) :
    aliasBucket hash bucketCount = hash.toNat % bucketCount := by
  obtain ⟨k, hk⟩ := h
  unfold aliasBucket
  rw [hk, Nat.and_two_pow_sub_one_eq_mod]

theorem Sound.pos (h : Sound table) : 0 < table.buckets.length := by
  have hmin : 16 ≤ table.buckets.length := h.min
  omega

variable {buckets : Buckets Alias}

section
variable (h : Sound table)
include h

theorem Sound.of_length {count : Nat}
    (hlen : buckets.length = table.buckets.length) (hwf : ∀ entry ∈ buckets.flatten, WellFormed entry)
    (hplaced : IsTable Alias.name nameHash buckets)
    (hcount : count = buckets.flatten.length) : Sound { buckets := buckets, count := count } := by
  obtain ⟨k, hk⟩ := h.power
  refine ⟨⟨k, hlen.trans hk⟩, ?_, hwf, hplaced, hcount⟩
  show minBuckets ≤ buckets.length
  rw [hlen]
  exact h.min

theorem Sound.chain_eq (name : CStr) : table.chain (aliasHash name) = bucketOf nameHash table.buckets name := by
  unfold AliasTable.chain bucketOf
  rw [aliasBucket_eq h.power]

theorem Sound.wf_chain (hash : UInt64) : ∀ entry ∈ table.chain hash, WellFormed entry := by
  intro entry hentry
  unfold AliasTable.chain at hentry
  cases hbucket : table.buckets[aliasBucket hash table.bucketCount]? with
  | none => simp [hbucket] at hentry
  | some bucket =>
    rw [hbucket] at hentry
    exact h.wf entry (mem_flatten.mpr ⟨bucket, mem_of_getElem? hbucket, hentry⟩)

theorem shapeValid_of_sound (hcount : table.count ≠ 0) : aliasTableShapeValid table = true := by
  obtain ⟨k, hk⟩ := h.power
  have hpow : table.bucketCount &&& (table.bucketCount - 1) = 0 := by
    rw [hk, Nat.and_two_pow_sub_one_eq_mod, Nat.mod_self]
  unfold aliasTableShapeValid
  rw [hpow]
  simpa using ⟨h.min, hcount⟩

end

/-! ## What is found -/

theorem hasKey_iff (h : WellFormed entry) :
    (entry.hash = aliasHash name ∧ entry.nameLength = name.length ∧ entry.name = name) ↔ entry.name = name := by
  refine ⟨fun hkey => hkey.2.2, ?_⟩
  intro heq
  exact ⟨by rw [h.hash, heq], by rw [h.nameLength, heq], heq⟩

theorem aliasFindKey_eq (h : ∀ entry ∈ chain, WellFormed entry) :
    aliasFindKey name name.length (aliasHash name) chain = chain.dropWhile fun entry => entry.name ≠ name := by
  induction chain with
  | nil => rfl
  | cons entry chain ih =>
    rw [aliasFindKey, dropWhile_cons]
    by_cases hkey : entry.name = name
    · rw [if_pos ((hasKey_iff (h entry mem_cons_self)).mpr hkey), if_neg (by simpa using hkey)]
    · rw [if_neg fun hall => hkey hall.2.2, if_pos (by simpa using hkey),
        ih fun e he => h e (mem_cons_of_mem _ he)]

section
variable (h : Sound table)
include h

section
variable (hcount : table.count ≠ 0)
include hcount

theorem aliasFind_eq (name : CStr) : aliasFind (some table) name =
      (bucketOf nameHash table.buckets name).dropWhile fun entry => entry.name ≠ name := by
  unfold aliasFind
  dsimp only
  rw [if_pos (shapeValid_of_sound h hcount), aliasFindKey_eq (h.wf_chain _), h.chain_eq]

theorem aliasFind_head (name : CStr) :
    (aliasFind (some table) name).head? = findEntry Alias.name nameHash table.buckets name := by
  unfold findEntry
  rw [aliasFind_eq h hcount, find?_eq_head?_dropWhile_not]
  congr 2
  funext entry
  rw [decide_not]

theorem aliasLookup_eq (name : CStr) :
    aliasLookup (some table) name = (findEntry Alias.name nameHash table.buckets name).map (·.value) := by
  unfold aliasLookup
  rw [aliasFind_head h hcount]

theorem aliasFind_cons (hfind : aliasFind (some table) name = existing :: next) :
    existing.name = name ∧ existing ∈ table.buckets.flatten := by
  have hhead := aliasFind_head h hcount name
  rw [hfind, head?_cons] at hhead
  obtain ⟨hmem, hname⟩ := (findEntry_eq_some_iff h.placed).mp hhead.symm
  exact ⟨hname, hmem⟩

end

theorem findEntry_of_count (hcount : table.count = 0) (name : CStr) :
    findEntry Alias.name nameHash table.buckets name = none := by
  rw [findEntry_eq_none_iff h.placed]
  intro entry hentry
  simp [length_eq_zero_iff.mp (h.count.symm.trans hcount)] at hentry

end

/-! ## Definitions -/

theorem aliasTableCreate_sound (h : aliasTableCreate env = some table) : Sound table ∧ table.count = 0 := by
  unfold aliasTableCreate at h
  split at h
  · cases h
    refine ⟨⟨⟨4, rfl⟩, le_rfl, ?_, isTable_replicate _, ?_⟩, rfl⟩
    · intro entry hentry
      simp [flatten_replicate_nil] at hentry
    · rw [flatten_replicate_nil]
      rfl
  · cases h

theorem aliasCreate_wf (hname : aliasNameValid name = true) (h : aliasCreate env name value = some candidate) :
    WellFormed candidate ∧ candidate.name = name ∧ candidate.value = value := by
  unfold aliasCreate at h
  split at h
  · cases h
  · split at h
    · cases h
      exact ⟨⟨Nat.one_ne_zero, hname, rfl, rfl, rfl, rfl, rfl⟩, rfl, rfl⟩
    · cases h

theorem aliasTableReserve_sound (h : Sound table) {table' : AliasTable}
    (hres : aliasTableReserve env table = some table') :
    Sound table' ∧ table'.count = table.count ∧ table'.buckets.flatten.Perm table.buckets.flatten := by
  unfold aliasTableReserve at hres
  dsimp only at hres
  split at hres
  · cases hres
    exact ⟨h, rfl, List.Perm.refl _⟩
  · split at hres
    · cases hres
    · split at hres
      · obtain ⟨k, hk⟩ := h.power
        have hnew : ∃ k, table.bucketCount * 2 = 2 ^ k := ⟨k + 1, by rw [hk, pow_succ]⟩
        have hrehash : table.buckets.flatten.foldl
            (fun buckets entry => buckets.modify (aliasBucket entry.hash (table.bucketCount * 2)) (entry :: ·))
            (replicate (table.bucketCount * 2) []) =
          rehash Alias.name nameHash table.buckets (table.bucketCount * 2) :=
          foldl_modify (fun entry hentry => by rw [aliasBucket_eq hnew, (h.wf entry hentry).hash]) length_replicate
        rw [hrehash] at hres
        cases hres
        obtain ⟨hplaced, hlength, hperm⟩ := rehash_spec h.placed (Nat.mul_pos h.pos Nat.two_pos)
        refine ⟨⟨?_, ?_, ?_, hplaced, ?_⟩, rfl, hperm⟩
        · obtain ⟨m, hm⟩ := hnew
          exact ⟨m, hlength.trans hm⟩
        · exact (h.min.trans (Nat.le_mul_of_pos_right _ Nat.two_pos)).trans_eq hlength.symm
        · intro entry hentry
          exact h.wf entry (hperm.mem_iff.mp hentry)
        · rw [hperm.length_eq]
          exact h.count
      · cases hres

def replaced (name : CStr) (candidate entry : Alias) : Alias := if entry.name = name then candidate else entry

theorem replaced_name (hname : candidate.name = name) (entry : Alias) :
    (replaced name candidate entry).name = entry.name := by
  unfold replaced
  split
  · exact hname.trans (Eq.symm ‹_›)
  · rfl

theorem map_replaced (hother : ∀ entry ∈ chain, entry.name ≠ name) : chain.map (replaced name candidate) = chain := by
  rw [map_congr_left (g := id), map_id]
  intro entry hentry
  exact if_neg (hother entry hentry)

theorem replaceLink_eq (hnodup : (chain.map Alias.name).Nodup)
    (hexisting : (chain.dropWhile fun entry => entry.name ≠ name) = existing :: next) :
    replaceLink (existing :: next) candidate chain = chain.map (replaced name candidate) := by
  induction chain with
  | nil => rfl
  | cons entry chain ih =>
    rw [map_cons, nodup_cons] at hnodup
    rw [dropWhile_cons] at hexisting
    rw [replaceLink, map_cons, replaced]
    by_cases hname : entry.name = name
    · rw [if_neg (by simpa using hname)] at hexisting
      have hother : ∀ e ∈ chain, e.name ≠ name := by
        intro e he heq
        exact hnodup.1 ((hname.trans heq.symm) ▸ mem_map_of_mem he)
      rw [if_pos hexisting, if_pos hname, map_replaced hother, (List.cons.inj hexisting).2]
    · rw [if_pos (by simpa using hname)] at hexisting
      have hother : entry :: chain ≠ existing :: next := by
        intro heq
        have hhead := head?_dropWhile_not (fun entry : Alias => decide (entry.name ≠ name)) chain
        rw [hexisting, head?_cons] at hhead
        rw [(List.cons.inj heq).1] at hname
        exact absurd hhead (by simpa using hname)
      rw [if_neg hother, if_neg hname, ih hnodup.2 hexisting]

theorem replace_eq (h : Sound table) (hcount : table.count ≠ 0)
    (hfind : aliasFind (some table) name = existing :: next) :
    table.buckets.modify (aliasBucket existing.hash table.bucketCount) (replaceLink (existing :: next) candidate) =
      updateEntry Alias.name table.buckets name (replaced name candidate) := by
  obtain ⟨hname, hmem⟩ := aliasFind_cons h hcount hfind
  have hupdate : ∀ bucket : Chain,
      bucket.map (fun entry => if entry.name = name then replaced name candidate entry else entry) =
      bucket.map (replaced name candidate) := by
    intro bucket
    apply map_congr_left
    intro entry _
    unfold replaced
    split <;> rfl
  rw [aliasBucket_eq h.power, (h.wf existing hmem).hash, hname]
  rw [aliasFind_eq h hcount] at hfind
  refine modify_eq_map h.placed name ?_ ?_
  · intro hnodup
    rw [replaceLink_eq hnodup hfind, hupdate]
  · intro bucket hother
    rw [hupdate, map_replaced hother]

structure Puts (t t' : Option AliasTable) (name : CStr) (value : Option CStr) : Prop where
  valid : Valid t'
  lookup : ∀ n, aliasLookup t' n = if n = name then value else aliasLookup t n

theorem replace_puts (h : Sound table) (hcount : table.count ≠ 0)
    (hfind : aliasFind (some table) name = existing :: next) (hwf : WellFormed candidate) (hname : candidate.name = name) :
    Puts (some table)
      (some { table with
        buckets := table.buckets.modify (aliasBucket existing.hash table.bucketCount)
          (replaceLink (existing :: next) candidate) })
      name (some candidate.value) := by
  rw [replace_eq h hcount hfind]
  obtain ⟨hexisting, hmem⟩ := aliasFind_cons h hcount hfind
  have hkey := @replaced_name candidate name hname
  have hsound :
      Sound { table with buckets := updateEntry Alias.name table.buckets name (replaced name candidate) } := by
    refine h.of_length (length_updateEntry table.buckets name _) ?_ (isTable_updateEntry hkey h.placed name) ?_
    · intro entry hentry
      rw [flatten_updateEntry] at hentry
      obtain ⟨e, he, heq⟩ := mem_map.mp hentry
      unfold replaced at heq
      split at heq
      · rw [← heq]
        exact hwf
      · rw [← heq]
        exact h.wf e he
    · rw [flatten_updateEntry, length_map]
      exact h.count
  refine ⟨⟨hsound, hcount⟩, ?_⟩
  intro n
  rw [aliasLookup_eq hsound hcount, aliasLookup_eq h hcount, findEntry_updateEntry hkey h.placed]
  by_cases hn : n = name
  · have hfound := (findEntry_eq_some_iff h.placed).mpr ⟨hmem, hexisting.trans hn.symm⟩
    rw [if_pos hn, if_pos hn, hfound, Option.map_some, Option.map_some, replaced, if_pos hexisting]
  · rw [if_neg hn, if_neg hn]

theorem push_puts (h : Sound table) (hwf : WellFormed candidate)
    (hnew : ∀ entry ∈ table.buckets.flatten, entry.name ≠ candidate.name)
    (hlookup : ∀ n, aliasLookup t n = (findEntry Alias.name nameHash table.buckets n).map (·.value)) :
    Puts t
      (some
        { buckets := table.buckets.modify (aliasBucket candidate.hash table.bucketCount) (candidate :: ·)
          count := table.count + 1 })
      candidate.name (some candidate.value) := by
  have hpush : table.buckets.modify (aliasBucket candidate.hash table.bucketCount) (candidate :: ·) =
      pushEntry Alias.name nameHash table.buckets candidate := by
    unfold pushEntry
    rw [aliasBucket_eq h.power, hwf.hash]
  rw [hpush]
  have hperm := @pushEntry_perm _ _ Alias.name nameHash _ h.pos candidate
  have hsound :
      Sound { buckets := pushEntry Alias.name nameHash table.buckets candidate, count := table.count + 1 } := by
    refine h.of_length (length_pushEntry table.buckets candidate) ?_ (isTable_pushEntry h.placed h.pos hnew) ?_
    · intro entry hentry
      cases mem_cons.mp (hperm.mem_iff.mp hentry) with
      | inl heq =>
        rw [heq]
        exact hwf
      | inr hmem => exact h.wf entry hmem
    · rw [hperm.length_eq, length_cons, ← h.count]
  refine ⟨⟨hsound, Nat.succ_ne_zero _⟩, ?_⟩
  intro n
  rw [aliasLookup_eq hsound (Nat.succ_ne_zero _), findEntry_pushEntry h.placed h.pos hnew, hlookup]
  by_cases hn : n = candidate.name
  · rw [if_pos hn.symm, if_pos hn, Option.map_some]
  · rw [if_neg fun heq => hn heq.symm, if_neg hn]

theorem aliasFind_nil_iff (h : Sound table) (hcount : table.count ≠ 0) :
    aliasFind (some table) name = [] ↔ findEntry Alias.name nameHash table.buckets name = none := by
  rw [← aliasFind_head h hcount, head?_eq_none_iff]

theorem active_sound (ht : Valid t) (hfind : aliasFind t name = [])
    (hactive : (t <|> aliasTableCreate env) = some table) :
    Sound table ∧ findEntry Alias.name nameHash table.buckets name = none ∧
      ∀ n, aliasLookup t n = (findEntry Alias.name nameHash table.buckets n).map (·.value) := by
  cases t with
  | none =>
    obtain ⟨hsound, hcount⟩ := aliasTableCreate_sound hactive
    refine ⟨hsound, findEntry_of_count hsound hcount name, ?_⟩
    intro n
    rw [findEntry_of_count hsound hcount]
    rfl
  | some active =>
    cases hactive
    exact ⟨ht.1, (aliasFind_nil_iff ht.1 ht.2).mp hfind, aliasLookup_eq ht.1 ht.2⟩

theorem aliasInsert_cases (ht : Valid t) (hfind : aliasFind t candidate.name = []) (hwf : WellFormed candidate) :
    ((aliasInsert env t candidate).2 = false ∧ (aliasInsert env t candidate).1 = t) ∨
      ((aliasInsert env t candidate).2 = true ∧
        Puts t (aliasInsert env t candidate).1 candidate.name (some candidate.value)) := by
  unfold aliasInsert
  cases hactive : t <|> aliasTableCreate env with
  | none => exact .inl ⟨rfl, rfl⟩
  | some active =>
    dsimp only
    cases hreserve : aliasTableReserve env active with
    | none => exact .inl ⟨rfl, rfl⟩
    | some reserved =>
      obtain ⟨hsound, hnone, hlookup⟩ := active_sound ht hfind hactive
      obtain ⟨hreserved, _, hperm⟩ := aliasTableReserve_sound hsound hreserve
      refine .inr ⟨rfl, push_puts hreserved hwf ?_ ?_⟩
      · apply (findEntry_eq_none_iff hreserved.placed).mp
        rw [findEntry_of_perm hsound.placed hreserved.placed hperm]
        exact hnone
      · intro n
        rw [hlookup, findEntry_of_perm hsound.placed hreserved.placed hperm]

theorem aliasDefine_cases (ht : Valid t) :
    ((aliasDefine env t name value).2 = false ∧ (aliasDefine env t name value).1 = t) ∨
      ((aliasDefine env t name value).2 = true ∧ Puts t (aliasDefine env t name value).1 name (some value)) := by
  unfold aliasDefine
  by_cases hvalid : aliasNameValid name = true
  · rw [if_pos hvalid]
    cases hcreate : aliasCreate env name value with
    | none => exact .inl ⟨rfl, rfl⟩
    | some candidate =>
      obtain ⟨hwf, hname, hvalue⟩ := aliasCreate_wf hvalid hcreate
      rw [← hname, ← hvalue]
      dsimp only
      cases hfind : aliasFind t candidate.name with
      | nil => exact aliasInsert_cases ht hfind hwf
      | cons existing next =>
        cases t with
        | none => cases hfind
        | some active => exact .inr ⟨rfl, replace_puts ht.1 ht.2 hfind hwf rfl⟩
  · rw [if_neg hvalid]
    exact .inl ⟨rfl, rfl⟩

/-! ## Removals -/

theorem unlinkKey_eq (h : ∀ entry ∈ chain, WellFormed entry) : unlinkKey name name.length (aliasHash name) chain =
      if chain.any (fun entry => entry.name = name) = true then some (chain.eraseP fun entry => entry.name = name)
      else none := by
  induction chain with
  | nil => rfl
  | cons entry chain ih =>
    rw [unlinkKey, any_cons]
    by_cases hkey : entry.name = name
    · rw [if_pos ((hasKey_iff (h entry mem_cons_self)).mpr hkey), eraseP_cons_of_pos (by simpa using hkey),
        if_pos (by simp [hkey])]
    · rw [if_neg fun hall => hkey hall.2.2, ih fun e he => h e (mem_cons_of_mem _ he),
        eraseP_cons_of_neg (by simpa using hkey), decide_eq_false hkey, Bool.false_or]
      split <;> rfl

theorem findEntry_none_of_any (h : (bucketOf nameHash buckets name).any (fun entry => entry.name = name) = false) :
    findEntry Alias.name nameHash buckets name = none := by
  unfold findEntry
  rw [find?_eq_none]
  intro entry hentry
  simpa using any_eq_false.mp h entry hentry

theorem findEntry_some_of_any (h : (bucketOf nameHash buckets name).any (fun entry => entry.name = name) = true) :
    ∃ entry, findEntry Alias.name nameHash buckets name = some entry := by
  apply Option.isSome_iff_exists.mp
  unfold findEntry
  rw [find?_isSome]
  exact any_eq_true.mp h

theorem unlink_eq (h : Sound table) (name : CStr) : table.buckets.set (aliasBucket (aliasHash name) table.bucketCount)
        ((bucketOf nameHash table.buckets name).eraseP fun entry => entry.name = name) =
      removeEntry Alias.name table.buckets name := by
  rw [← modify_eraseP h.placed, modify_eq_set, aliasBucket_eq h.power]
  rfl

theorem removeEntry_sound (h : Sound table) (hfound : findEntry Alias.name nameHash table.buckets name = some entry) :
    Sound { buckets := removeEntry Alias.name table.buckets name, count := table.count - 1 } := by
  obtain ⟨hmem, hname⟩ := (findEntry_eq_some_iff h.placed).mp hfound
  refine h.of_length (length_removeEntry table.buckets name) ?_ (isTable_removeEntry h.placed name) ?_
  · intro e he
    rw [flatten_removeEntry] at he
    exact h.wf e (mem_filter.mp he).1
  · have hlen := flatten_length_removeEntry h.placed hmem
    rw [hname] at hlen
    rw [h.count, ← hlen, Nat.add_sub_cancel]

theorem aliasUnset_puts (ht : Valid t) :
    (aliasUnset t name).1 = t ∧ aliasLookup t name = none ∨ Puts t (aliasUnset t name).1 name none := by
  cases t with
  | none => exact .inl ⟨rfl, rfl⟩
  | some active =>
    obtain ⟨hsound, hcount⟩ := ht
    unfold aliasUnset
    dsimp only
    rw [unlinkKey_eq (hsound.wf_chain _), hsound.chain_eq]
    by_cases hany : (bucketOf nameHash active.buckets name).any (fun entry => entry.name = name) = true
    · right
      rw [if_pos hany]
      dsimp only
      rw [unlink_eq hsound]
      obtain ⟨entry, hfound⟩ := findEntry_some_of_any hany
      have hremoved := removeEntry_sound hsound hfound
      by_cases hlast : active.count - 1 = 0
      · rw [if_pos hlast]
        refine ⟨trivial, ?_⟩
        intro n
        have hnone := findEntry_of_count hremoved hlast n
        dsimp only at hnone
        rw [findEntry_removeEntry hsound.placed] at hnone
        by_cases hn : n = name
        · rw [if_pos hn]
          rfl
        · rw [if_neg hn] at hnone
          rw [if_neg hn, aliasLookup_eq hsound hcount, hnone]
          rfl
      · rw [if_neg hlast]
        refine ⟨⟨hremoved, hlast⟩, ?_⟩
        intro n
        rw [aliasLookup_eq hremoved hlast, aliasLookup_eq hsound hcount]
        dsimp only
        rw [findEntry_removeEntry hsound.placed]
        by_cases hn : n = name
        · rw [if_pos hn, if_pos hn]
          rfl
        · rw [if_neg hn, if_neg hn]
    · left
      rw [if_neg hany]
      refine ⟨rfl, ?_⟩
      rw [aliasLookup_eq hsound hcount, findEntry_none_of_any (Bool.eq_false_iff.mpr hany)]
      rfl

/-! ## Words -/

def isUnquotedText (part : WordPart) : Bool := part.kind = .text && !wordPartIsQuoted part

def wordText : CStr := (word.map (·.text)).flatten

theorem aliasHashBytes_append (text rest : CStr) :
    aliasHashBytes hash (text ++ rest) = aliasHashBytes (aliasHashBytes hash text) rest :=
  foldl_append

theorem wordKeyFrom_eq (length : Nat) (hlen : length + (wordText word).length ≤ sizeMax)
    (htext : word.all isUnquotedText = true) :
    wordKeyFrom hash length word =
      if length + (wordText word).length ≠ 0 then
        some (aliasHashBytes hash (wordText word), length + (wordText word).length)
      else none := by
  induction word generalizing hash length with
  | nil => rfl
  | cons part parts ih =>
    rw [all_cons, Bool.and_eq_true] at htext
    have hsplit : wordText (part :: parts) = part.text ++ wordText parts := rfl
    rw [hsplit, length_append] at hlen ⊢
    have hpart : ¬(part.kind ≠ .text ∨ wordPartIsQuoted part = true ∨ part.text.length > sizeMax - length) := by
      have hkind := htext.1
      unfold isUnquotedText at hkind
      simp only [Bool.and_eq_true, decide_eq_true_eq, Bool.not_eq_true'] at hkind
      intro hbad
      cases hbad with
      | inl hne => exact hne hkind.1
      | inr hbad =>
        cases hbad with
        | inl hquoted => exact absurd hquoted (by rw [hkind.2]; exact Bool.false_ne_true)
        | inr hlong => omega
    rw [wordKeyFrom, if_neg hpart, ih _ _ (by omega) htext.2, aliasHashBytes_append, add_assoc]

theorem wordKeyFrom_none (length : Nat) (hlen : length ≤ sizeMax)
    (hbad : word.all isUnquotedText = false ∨ sizeMax < length + (wordText word).length) :
    wordKeyFrom hash length word = none := by
  induction word generalizing hash length with
  | nil =>
    cases hbad with
    | inl htext => cases htext
    | inr hlong => exact absurd hlong (Nat.not_lt.mpr hlen)
  | cons part parts ih =>
    rw [wordKeyFrom]
    split
    · rfl
    · next hpart =>
      simp only [not_or, not_not, Bool.not_eq_true, Nat.not_lt] at hpart
      have htrue : isUnquotedText part = true := by
        unfold isUnquotedText
        simp [hpart.1, hpart.2.1]
      apply ih _ _ (by omega)
      cases hbad with
      | inl htext =>
        rw [all_cons, htrue, Bool.true_and] at htext
        exact .inl htext
      | inr hlong =>
        have hsplit : wordText (part :: parts) = part.text ++ wordText parts := rfl
        rw [hsplit, length_append] at hlong
        exact .inr (by omega)

theorem take_append_iff (l text rest : CStr) : l.take (text.length + rest.length) = text ++ rest ↔
      l.take text.length = text ∧ (l.drop text.length).take rest.length = rest := by
  refine ⟨?_, ?_⟩
  · intro heq
    refine ⟨?_, ?_⟩
    · have htake := congrArg (List.take text.length) heq
      rwa [take_take, min_eq_left (Nat.le_add_right _ _), take_left] at htake
    · have hdrop := congrArg (drop text.length) heq
      rwa [drop_take, Nat.add_sub_cancel_left, drop_left] at hdrop
  · intro ⟨htext, hrest⟩
    rw [take_add, htext, hrest]

theorem wordMatchesFrom_iff (offset : Nat) : wordMatchesFrom entry offset word = true ↔
      (entry.name.drop offset).take (wordText word).length = wordText word ∧
        offset + (wordText word).length = entry.nameLength := by
  induction word generalizing offset with
  | nil => simp [wordMatchesFrom, wordText]
  | cons part parts ih =>
    have hsplit : wordText (part :: parts) = part.text ++ wordText parts := rfl
    rw [hsplit, length_append, wordMatchesFrom, take_append_iff, drop_drop]
    by_cases htake : (entry.name.drop offset).take part.text.length = part.text
    · rw [if_neg fun hbad => hbad.2 htake, ih, add_assoc]
      exact ⟨fun ⟨hrest, hlen⟩ => ⟨⟨htake, hrest⟩, hlen⟩, fun ⟨hall, hlen⟩ => ⟨hall.2, hlen⟩⟩
    · have hlen : part.text.length ≠ 0 := by
        intro hzero
        rw [length_eq_zero_iff.mp hzero] at htake
        exact htake (take_zero)
      rw [if_pos ⟨hlen, htake⟩]
      exact ⟨fun hfalse => absurd hfalse Bool.false_ne_true, fun hall => absurd hall.1.1 htake⟩

theorem wordMatches_iff (h : WellFormed entry) (word : Lexer.Word) (hlen : entry.nameLength = (wordText word).length) :
    aliasWordMatches entry word = true ↔ entry.name = wordText word := by
  unfold aliasWordMatches
  rw [wordMatchesFrom_iff, drop_zero, ← hlen, h.nameLength, take_length, zero_add]
  exact ⟨fun hall => hall.1, fun heq => ⟨heq, rfl⟩⟩

theorem aliasFindWordKey_eq (h : ∀ entry ∈ chain, WellFormed entry) (word : Lexer.Word) (hash : UInt64) :
    aliasFindWordKey word (wordText word).length hash chain =
      aliasFindKey (wordText word) (wordText word).length hash chain := by
  induction chain with
  | nil => rfl
  | cons entry chain ih =>
    have hiff : (entry.hash = hash ∧ entry.nameLength = (wordText word).length ∧ aliasWordMatches entry word = true) ↔
        (entry.hash = hash ∧ entry.nameLength = (wordText word).length ∧ entry.name = wordText word) := by
      refine and_congr_right fun _ => and_congr_right fun hlen => ?_
      exact wordMatches_iff (h entry mem_cons_self) word hlen
    rw [aliasFindWordKey, aliasFindKey, ih fun e he => h e (mem_cons_of_mem _ he)]
    by_cases hkey : entry.hash = hash ∧ entry.nameLength = (wordText word).length ∧ entry.name = wordText word
    · rw [if_pos hkey, if_pos (hiff.mpr hkey)]
    · rw [if_neg hkey, if_neg fun hall => hkey (hiff.mp hall)]

theorem aliasFind_empty (ht : Valid t) : aliasFind t [] = [] := by
  cases t with
  | none => rfl
  | some table =>
    rw [aliasFind_nil_iff ht.1 ht.2, findEntry_eq_none_iff ht.1.placed]
    intro entry hentry hname
    have hvalid := (ht.1.wf entry hentry).named
    rw [hname] at hvalid
    exact absurd hvalid (by decide)

theorem aliasFindWord_text (ht : Valid t) {word : Lexer.Word} (htext : word.all isUnquotedText = true)
    (hlen : (wordText word).length ≤ sizeMax) : aliasFindWord t word = aliasFind t (wordText word) := by
  cases t with
  | none => rfl
  | some table =>
    have hshape := shapeValid_of_sound ht.1 ht.2
    unfold aliasFindWord
    dsimp only
    rw [if_pos hshape, aliasWordKey, wordKeyFrom_eq word hashBasis 0 (by rwa [zero_add]) htext, zero_add]
    by_cases hempty : (wordText word).length = 0
    · rw [if_neg (not_not.mpr hempty), length_eq_zero_iff.mp hempty, aliasFind_empty ht]
    · rw [if_pos hempty]
      dsimp only
      rw [aliasFindWordKey_eq (ht.1.wf_chain _)]
      unfold aliasFind
      dsimp only
      rw [if_pos hshape]
      rfl

theorem aliasFindWord_other {word : Lexer.Word}
    (hbad : word.all isUnquotedText = false ∨ sizeMax < (wordText word).length) : aliasFindWord t word = [] := by
  cases t with
  | none => rfl
  | some table =>
    unfold aliasFindWord aliasWordKey
    rw [wordKeyFrom_none word _ _ (Nat.zero_le _) (by rwa [zero_add])]
    dsimp only
    split <;> rfl

theorem chainInvariants_of_sound (h : Sound table) (hcount : table.count ≠ 0) {i : Nat} {bucket : Chain}
    (hi : table.buckets[i]? = some bucket) (before after : Chain) (hsplit : bucket = before ++ after) :
    chainInvariants table i after = true := by
  induction after generalizing before with
  | nil => rfl
  | cons entry after ih =>
    have hrest := ih (before ++ [entry]) (by rw [hsplit, append_assoc, singleton_append])
    have hmem : bucket ∈ table.buckets := mem_of_getElem? hi
    have hentry : entry ∈ bucket := by
      rw [hsplit]
      exact mem_append_right _ mem_cons_self
    have hwf := h.wf entry (mem_flatten.mpr ⟨bucket, hmem, hentry⟩)
    have hplace := h.placed.placed i bucket hi entry hentry
    have hbucket : aliasBucket entry.hash table.bucketCount = i := by
      rw [aliasBucket_eq h.power, hwf.hash]
      exact hplace
    have hfind : aliasFind (some table) entry.name = entry :: after := by
      have hof : bucketOf nameHash table.buckets entry.name = bucket := by
        unfold bucketOf
        rw [hplace, hi]
        rfl
      have hnodup := nodup_bucket h.placed hmem
      rw [hsplit, map_append, map_cons] at hnodup
      have hdisjoint := (nodup_append.mp hnodup).2.2
      rw [aliasFind_eq h hcount, hof, hsplit, dropWhile_append_of_pos, dropWhile_cons_of_neg (by simp)]
      intro e he
      simpa using hdisjoint e.name (mem_map_of_mem he) entry.name mem_cons_self
    rw [chainInvariants, hfind, hbucket, hrest]
    simp [hwf.referenced, hwf.named, hwf.nameLength, hwf.valueLength, hwf.locale, hwf.hash, hwf.endsBlank]

theorem aliasesInvariants_of_valid (ht : Valid t) : aliasesInvariants t = true := by
  cases t with
  | none => rfl
  | some table =>
    obtain ⟨h, hcount⟩ := ht
    have hchains : (table.buckets.zipIdx.all fun bucket => chainInvariants table bucket.2 bucket.1) = true := by
      rw [all_eq_true]
      intro bucket hbucket
      exact chainInvariants_of_sound h hcount (mem_zipIdx_iff_getElem?.mp hbucket) [] bucket.1 rfl
    unfold aliasesInvariants
    dsimp only
    rw [shapeValid_of_sound h hcount, hchains, ← h.count]
    simp

/-! ## Runs -/

theorem apply_spec (ht : Valid t) (op : AliasOp) : Valid (op.apply t).1 ∧
      ∀ name, aliasLookup (op.apply t).1 name = (said name (op, (op.apply t).2)).getD (aliasLookup t name) := by
  cases op with
  | define env defined value =>
    cases @aliasDefine_cases t defined value env ht with
    | inl hfail =>
      refine ⟨?_, ?_⟩
      · exact hfail.2.symm ▸ ht
      · intro name
        unfold AliasOp.apply
        dsimp only
        rw [hfail.1, hfail.2]
        rfl
    | inr hok =>
      refine ⟨hok.2.valid, ?_⟩
      intro name
      unfold AliasOp.apply
      dsimp only
      rw [hok.1, hok.2.lookup, said]
      by_cases hname : name = defined
      · rw [if_pos hname, if_pos hname.symm]
        rfl
      · rw [if_neg hname, if_neg fun heq => hname heq.symm]
        rfl
  | unset removed =>
    cases @aliasUnset_puts t removed ht with
    | inl hnone =>
      refine ⟨hnone.1.symm ▸ ht, ?_⟩
      intro name
      unfold AliasOp.apply
      dsimp only
      rw [hnone.1, said]
      by_cases hname : removed = name
      · rw [if_pos hname, ← hname, hnone.2]
        rfl
      · rw [if_neg hname]
        rfl
    | inr hok =>
      refine ⟨hok.valid, ?_⟩
      intro name
      unfold AliasOp.apply
      dsimp only
      rw [hok.lookup, said]
      by_cases hname : name = removed
      · rw [if_pos hname, if_pos hname.symm]
        rfl
      · rw [if_neg hname, if_neg fun heq => hname heq.symm]
        rfl
  | unsetAll => exact ⟨trivial, fun _ => rfl⟩
  | find name => exact ⟨ht, fun _ => rfl⟩
  | findWord word => exact ⟨ht, fun _ => rfl⟩

theorem lastDefined_snoc (name : CStr) (history : List (AliasOp × Bool)) (event : AliasOp × Bool) :
    lastDefined name (history ++ [event]) = (said name event).getD (lastDefined name history) := by
  unfold lastDefined
  rw [filterMap_append]
  cases hsaid : said name event with
  | none =>
    rw [filterMap_cons_none hsaid, filterMap_nil, append_nil]
    rfl
  | some value =>
    rw [filterMap_cons_some hsaid, filterMap_nil, getLast?_concat]
    rfl

theorem run_snoc (op : AliasOp) : run (ops ++ [op]) = step (run ops) op :=
  foldl_concat ..

theorem run_spec : Valid (run ops).1 ∧ ∀ name, aliasLookup (run ops).1 name = lastDefined name (run ops).2 := by
  induction ops using reverseRecOn with
  | nil => exact ⟨trivial, fun _ => rfl⟩
  | append_singleton ops op ih =>
    obtain ⟨hvalid, hlookup⟩ := ih
    obtain ⟨hvalid', hlookup'⟩ := apply_spec hvalid op
    rw [run_snoc]
    refine ⟨hvalid', ?_⟩
    intro name
    show aliasLookup (op.apply (run ops).1).1 name = lastDefined name ((run ops).2 ++ [(op, (op.apply (run ops).1).2)])
    rw [lastDefined_snoc, hlookup', hlookup]

/-- **Main result.** After any operations the invariants hold, a name means its last successful
definition, a definition that fails leaves the table as it is, and a word of unquoted text finds
what its text finds while any other word finds nothing. -/
theorem aliases_refine_map (ops : List AliasOp) : aliasesInvariants (run ops).1 = true ∧
      (∀ name, aliasLookup (run ops).1 name = lastDefined name (run ops).2) ∧
      (∀ env name value, (aliasDefine env (run ops).1 name value).2 = false →
        (aliasDefine env (run ops).1 name value).1 = (run ops).1) ∧
      (∀ word : Lexer.Word, aliasFindWord (run ops).1 word =
        if word.all isUnquotedText = true ∧ (wordText word).length ≤ sizeMax then aliasFind (run ops).1 (wordText word)
        else []) := by
  obtain ⟨hvalid, hlookup⟩ := run_spec ops
  refine ⟨aliasesInvariants_of_valid hvalid, hlookup, ?_, ?_⟩
  · intro env name value hfail
    cases @aliasDefine_cases _ name value env hvalid with
    | inl h => exact h.2
    | inr h => exact absurd (h.1.symm.trans hfail) Bool.noConfusion
  · intro word
    by_cases hword : word.all isUnquotedText = true ∧ (wordText word).length ≤ sizeMax
    · rw [if_pos hword]
      exact aliasFindWord_text hvalid hword.1 hword.2
    · rw [if_neg hword]
      apply aliasFindWord_other
      cases htext : word.all isUnquotedText with
      | false => exact .inl rfl
      | true => exact .inr (Nat.lt_of_not_le fun hlen => hword ⟨htext, hlen⟩)

def unquotedText : CStr := wordText (word.filter isUnquotedText)

/-- Quoted text after the name is not looked away from. -/
theorem quoted_tail_not_found : ¬∀ (ops : List AliasOp) (word : Lexer.Word),
      (aliasFindWord (run ops).1 word ≠ [] ↔ aliasFind (run ops).1 (unquotedText word) ≠ []) := by
  intro hall
  have h := hall [.define {} ['a'] ['x']]
    [{ kind := .text, quote := .none, text := ['a'] }, { kind := .text, quote := .double, text := ['b'] }]
  exact absurd (h.mpr (by decide)) (by decide)

end Bx.Ash.Aliases
