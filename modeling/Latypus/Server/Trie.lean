import Latypus.Http.Message
import Latypus.Lib.Search
import Mathlib.Data.List.Induction
import Mathlib.Data.List.Infix
import Mathlib.Logic.Function.Basic

/-! The trie of `trie.h`: nodes with an entry and 256 children, indexed by the bytes of a key as
signed characters. An index outside the array is a fault, written `none`. -/

namespace Latypus.Server
open Lib Http

/-- A node: its entry, which is a key with its value, and its children. -/
inductive TrieNode (T : Type) where
  | node (value : Bytes × T) (chars : Fin 256 → Option (TrieNode T))

namespace TrieNode
variable {T : Type}

def value : TrieNode T → Bytes × T
  | node value _ => value

def chars : TrieNode T → Fin 256 → Option (TrieNode T)
  | node _ chars => chars

/-- A fresh node; `null` is the value `T()`. -/
def empty (null : T) : TrieNode T := node ([], null) fun _ => none

/-- The index `chars[c]` of a byte read through a signed `char`. -/
def charIndex (c : UInt8) : Option (Fin 256) :=
  if h : c.toNat < 128 then some ⟨c.toNat, by omega⟩ else none

/-- The loop of `insert` over the rest of a key. -/
def insertAt (null : T) (entry : Bytes × T) : Bytes → TrieNode T → Option (TrieNode T)
  | [], node _ chars => some (node entry chars)
  | c :: key, node value chars =>
    match charIndex c with
    | none => none
    | some i =>
      match insertAt null entry key ((chars i).getD (empty null)) with
      | none => none
      | some child => some (node value (Function.update chars i (some child)))

/-- `insert`: the key is read as a C string. -/
def insert (null : T) (t : TrieNode T) (key : Bytes) (value : T) : Option (TrieNode T) :=
  insertAt null (key, value) (cString key) t

/-- The loop of `find_nearest`, with the nearest entry so far. -/
def findNearestFrom (truthy : T → Bool) : Bytes → TrieNode T → Bytes × T → Option (Bytes × T)
  | [], _, nearest => some nearest
  | c :: key, node _ chars, nearest =>
    match charIndex c with
    | none => none
    | some i =>
      match chars i with
      | none => some nearest
      | some t => findNearestFrom truthy key t (if truthy t.value.2 then t.value else nearest)

def findNearest (null : T) (truthy : T → Bool) (t : TrieNode T) (key : Bytes) : Option (Bytes × T) :=
  findNearestFrom truthy (cString key) t ([], null)

/-- The entry of the node that a key leads to. -/
def entryAt : Bytes → TrieNode T → Option (Bytes × T)
  | [], t => some t.value
  | c :: key, node _ chars => (charIndex c).bind fun i => (chars i).bind (entryAt key)

/-- An insertion changes one entry and creates nodes with the default entry. -/
theorem entryAt_insertAt {null : T} {entry : Bytes × T} {key : Bytes} {t t' : TrieNode T}
    (h : insertAt null entry key t = some t') {key' : Bytes} {e : Bytes × T}
    (he : entryAt key' t' = some e) : e = entry ∨ e = ([], null) ∨ entryAt key' t = some e := by
  induction key generalizing t t' key' with
  | nil =>
    obtain ⟨value, chars⟩ := t
    obtain rfl := Option.some.inj h
    cases key' with
    | nil => exact .inl (Option.some.inj he).symm
    | cons c key' => exact .inr (.inr he)
  | cons c key ih =>
    obtain ⟨value, chars⟩ := t
    simp only [insertAt] at h
    cases hi : charIndex c with
    | none => simp [hi] at h
    | some i =>
      simp only [hi] at h
      cases hchild : insertAt null entry key ((chars i).getD (empty null)) with
      | none => simp [hchild] at h
      | some child =>
        simp only [hchild, Option.some.injEq] at h
        subst h
        cases key' with
        | nil => exact .inr (.inr he)
        | cons c' key' =>
          simp only [entryAt, Option.bind_eq_some_iff] at he ⊢
          obtain ⟨j, hj, t'', ht'', he⟩ := he
          by_cases hij : j = i
          · subst hij
            rw [Function.update_self, Option.some.injEq] at ht''
            subst ht''
            rcases ih hchild he with hentry | hnull | hold
            · exact .inl hentry
            · exact .inr (.inl hnull)
            · -- the child was there before, or it was created for this key
              cases hold' : chars j with
              | none =>
                rw [hold', Option.getD_none] at hold
                cases key' with
                | nil => exact .inr (.inl (Option.some.inj hold).symm)
                | cons c'' key' => simp [empty, entryAt] at hold
              | some t =>
                rw [hold', Option.getD_some] at hold
                exact .inr (.inr ⟨j, hj, t, hold', hold⟩)
          · rw [Function.update_of_ne hij] at ht''
            exact .inr (.inr ⟨j, hj, t'', ht'', he⟩)

/-- The search returns the entry it starts from or the entry of a node with a value. -/
theorem findNearestFrom_cases {truthy : T → Bool} {key : Bytes} {t : TrieNode T}
    {nearest e : Bytes × T} (h : findNearestFrom truthy key t nearest = some e) :
    e = nearest ∨ ∃ key', entryAt key' t = some e := by
  induction key generalizing t nearest with
  | nil => exact .inl (by simpa [findNearestFrom, eq_comm] using h)
  | cons c key ih =>
    obtain ⟨value, chars⟩ := t
    simp only [findNearestFrom] at h
    cases hi : charIndex c with
    | none => simp [hi] at h
    | some i =>
      cases hchild : chars i with
      | none => exact .inl (by simpa [hi, hchild, eq_comm] using h)
      | some t =>
        simp only [hi, hchild] at h
        have hbelow (key' : Bytes) (he : entryAt key' t = some e) :
            entryAt (c :: key') (node value chars) = some e := by
          simp [entryAt, hi, hchild, he]
        rcases ih h with heq | ⟨key', he⟩
        · split_ifs at heq
          · exact .inr ⟨[c], hbelow [] (by rw [heq]; rfl)⟩
          · exact .inl heq
        · exact .inr ⟨c :: key', hbelow key' he⟩

/-! ### The trie as a map -/

/-- The loop of `find`. -/
def findFrom (null : T) : Bytes → TrieNode T → Option T
  | [], t => some t.value.2
  | c :: key, node _ chars =>
    match charIndex c with
    | none => none
    | some i =>
      match chars i with
      | none => some null
      | some t => findFrom null key t

def find (null : T) (t : TrieNode T) (key : Bytes) : Option T := findFrom null (cString key) t

/-- The trie after a sequence of insertions. -/
def ofInserts (null : T) (inserts : List (Bytes × T)) : Option (TrieNode T) :=
  inserts.foldlM (fun t e => t.insert null e.1 e.2) (empty null)

/-- The bytes that index the children: neither the terminator nor a negative character. -/
def KeyBytes (key : Bytes) : Prop := ∀ c ∈ key, c ≠ 0 ∧ c.toNat < 128

/-- The value last inserted under a key. -/
def lastValue (inserts : List (Bytes × T)) (key : Bytes) : Option T := inserts.reverse.lookup key

/-- The entry under a key, or the default one. -/
def lastEntry (null : T) (inserts : List (Bytes × T)) (key : Bytes) : Bytes × T :=
  match lastValue inserts key with
  | none => ([], null)
  | some v => (key, v)

/-- The entry of the longest non-empty prefix of a key that was inserted with a value that counts. -/
def IsNearest (null : T) (truthy : T → Bool) (inserts : List (Bytes × T)) (key : Bytes)
    (e : Bytes × T) : Prop :=
  (∃ v, lastValue inserts e.1 = some v ∧ truthy v = true ∧ e = (e.1, v) ∧ e.1 ≠ [] ∧ e.1 <+: key ∧
    ∀ p w, p ≠ [] → p <+: key → lastValue inserts p = some w → truthy w = true → p.length ≤ e.1.length) ∨
  (e = ([], null) ∧ ∀ p w, p ≠ [] → p <+: key → lastValue inserts p = some w → truthy w = false)

theorem KeyBytes.cString {key : Bytes} (h : KeyBytes key) : cString key = key :=
  cString_of_notMem fun h0 => (h 0 h0).1 rfl

theorem charIndex_of_lt {c : UInt8} (h : c.toNat < 128) : charIndex c = some ⟨c.toNat, by omega⟩ := dif_pos h

theorem entryAt_empty (null : T) (key : Bytes) : (entryAt key (empty null)).getD ([], null) = ([], null) := by
  cases key with
  | nil => rfl
  | cons c key => simp [empty, entryAt]

/-- An insertion sets the entry under its key and leaves those under the other keys. -/
theorem insertAt_spec (null : T) (entry : Bytes × T) {key : Bytes} (hkey : KeyBytes key) (t : TrieNode T) :
    ∃ t', insertAt null entry key t = some t' ∧ ∀ key', KeyBytes key' →
      (entryAt key' t').getD ([], null) =
        if key' = key then entry else (entryAt key' t).getD ([], null) := by
  induction key generalizing t with
  | nil =>
    obtain ⟨value, chars⟩ := t
    refine ⟨_, rfl, fun key' _ => ?_⟩
    cases key' with
    | nil => rfl
    | cons c key' => rfl
  | cons c key ih =>
    obtain ⟨value, chars⟩ := t
    have hc := charIndex_of_lt (hkey c List.mem_cons_self).2
    set i : Fin 256 := ⟨c.toNat, by have := (hkey c List.mem_cons_self).2; omega⟩ with hi
    obtain ⟨child, hchild, hspec⟩ := ih (fun x hx => hkey x (List.mem_cons_of_mem c hx))
      ((chars i).getD (empty null))
    refine ⟨node value (Function.update chars i (some child)), ?_, fun key' hkey' => ?_⟩
    · simp only [insertAt, hc, hchild]
    cases key' with
    | nil => rfl
    | cons c' key' =>
      have hc' := charIndex_of_lt (hkey' c' List.mem_cons_self).2
      simp only [entryAt, hc', Option.bind_some]
      by_cases hcc : c' = c
      · subst hcc
        rw [← hi, Function.update_self, Option.bind_some,
          hspec key' fun x hx => hkey' x (List.mem_cons_of_mem c' hx)]
        have heq : (c' :: key' = c' :: key) = (key' = key) := by simp
        simp only [heq]
        congr 1
        -- a child created for the key has nothing below it
        cases chars i with
        | some t => rfl
        | none => exact entryAt_empty null key'
      · have hne : (⟨c'.toNat, by have := (hkey' c' List.mem_cons_self).2; omega⟩ : Fin 256) ≠ i := by
          intro heq
          exact hcc (UInt8.toNat_inj.mp (congrArg Fin.val heq))
        rw [Function.update_of_ne hne, if_neg (by simp [hcc])]

theorem lastEntry_concat (null : T) (inserts : List (Bytes × T)) (key : Bytes) (v : T) (key' : Bytes) :
    lastEntry null (inserts ++ [(key, v)]) key' =
      if key' = key then (key, v) else lastEntry null inserts key' := by
  unfold lastEntry lastValue
  rw [List.reverse_append, List.reverse_singleton, List.singleton_append, List.lookup_cons]
  by_cases h : key' = key
  · simp [h]
  · simp [h, beq_eq_false_iff_ne.mpr h]

/-- Every sequence of insertions gives a trie with the last entry under each key. -/
theorem ofInserts_spec (null : T) {inserts : List (Bytes × T)} (hkeys : ∀ e ∈ inserts, KeyBytes e.1) :
    ∃ t, ofInserts null inserts = some t ∧ ∀ key, KeyBytes key →
      (entryAt key t).getD ([], null) = lastEntry null inserts key := by
  induction inserts using List.reverseRecOn with
  | nil =>
    refine ⟨_, rfl, fun key _ => ?_⟩
    exact entryAt_empty null key
  | append_singleton inserts e ih =>
    obtain ⟨t, ht, hspec⟩ := ih fun e' he' => hkeys e' (List.mem_append_left _ he')
    have hkey : KeyBytes e.1 := hkeys e (by simp)
    obtain ⟨t', ht', hspec'⟩ := insertAt_spec null e hkey t
    refine ⟨t', ?_, fun key hk => ?_⟩
    · have hinsert : insert null t e.1 e.2 = some t' := by
        rw [insert, hkey.cString]
        exact ht'
      rw [ofInserts, List.foldlM_append, show inserts.foldlM _ _ = some t from ht]
      simp [hinsert]
    · rw [hspec' key hk, hspec key hk, lastEntry_concat]

/-- `find` reads the entry that the key leads to. -/
theorem findFrom_eq (null : T) {key : Bytes} (hkey : KeyBytes key) (t : TrieNode T) :
    findFrom null key t = some ((entryAt key t).getD ([], null)).2 := by
  induction key generalizing t with
  | nil => rfl
  | cons c key ih =>
    obtain ⟨value, chars⟩ := t
    have hc := charIndex_of_lt (hkey c List.mem_cons_self).2
    simp only [findFrom, entryAt, hc, Option.bind_some]
    cases chars ⟨c.toNat, _⟩ with
    | none => rfl
    | some t => exact ih (fun x hx => hkey x (List.mem_cons_of_mem c hx)) t

theorem charIndex_eq_none {c : UInt8} : charIndex c = none ↔ 128 ≤ c.toNat := by
  rw [charIndex]
  split_ifs with h <;> simp <;> omega

theorem lt_of_charIndex {c : UInt8} {i : Fin 256} (h : charIndex c = some i) : c.toNat < 128 := by
  by_contra hge
  simp [charIndex_eq_none.mpr (Nat.not_lt.mp hge)] at h

theorem charIndex_inj {c c' : UInt8} {i : Fin 256} (h : charIndex c = some i) (h' : charIndex c' = some i) :
    c = c' := by
  unfold charIndex at h h'
  split_ifs at h h'
  have hval := congrArg Fin.val ((Option.some.inj h).trans (Option.some.inj h').symm)
  exact UInt8.toNat_inj.mp hval

/-- The search stays inside the arrays exactly when the byte behind every node on its way is a
positive character. -/
theorem findNearestFrom_isSome_iff {truthy : T → Bool} {key : Bytes} {t : TrieNode T} {e : Bytes × T} :
    (findNearestFrom truthy key t e).isSome = true ↔
      ∀ i c, key[i]? = some c → (entryAt (key.take i) t).isSome = true → c.toNat < 128 := by
  induction key generalizing t e with
  | nil => simp [findNearestFrom]
  | cons c key ih =>
    obtain ⟨value, chars⟩ := t
    have hfirst : (∀ i c', (c :: key)[i]? = some c' →
        (entryAt ((c :: key).take i) (node value chars)).isSome = true → c'.toNat < 128) ↔
        c.toNat < 128 ∧ ∀ i c', key[i]? = some c' →
          (entryAt (c :: key.take i) (node value chars)).isSome = true → c'.toNat < 128 := by
      constructor
      · intro h
        exact ⟨h 0 c rfl rfl, fun i c' hc' => h (i + 1) c' hc'⟩
      · rintro ⟨h0, h⟩ (_ | i) c' hc'
        · obtain rfl := Option.some.inj hc'
          exact fun _ => h0
        · exact h i c' hc'
    rw [hfirst]
    simp only [findNearestFrom, entryAt]
    cases hi : charIndex c with
    | none => simp [Nat.not_lt.mpr (charIndex_eq_none.mp hi)]
    | some i =>
      have hlt : c.toNat < 128 := lt_of_charIndex hi
      cases hchild : chars i with
      | none => simp [hlt, hchild]
      | some t => simp [hlt, hchild, ih]

section Nearest
variable {null : T} {truthy : T → Bool} {inserts : List (Bytes × T)} {e : Bytes × T}

theorem lastEntry_truthy (hnull : truthy null = false) {key : Bytes} :
    truthy (lastEntry null inserts key).2 = true ↔ ∃ v, lastValue inserts key = some v ∧ truthy v = true := by
  unfold lastEntry
  cases lastValue inserts key <;> simp [hnull]

theorem isNearest_nil : IsNearest null truthy inserts [] ([], null) :=
  .inr ⟨rfl, fun _ _ hp hpre => absurd (List.prefix_nil.mp hpre) hp⟩

/-- One more byte of the key: its own entry, if it counts, is the nearest. -/
theorem IsNearest.concat (hnull : truthy null = false) {key : Bytes} (h : IsNearest null truthy inserts key e)
    (c : UInt8) : IsNearest null truthy inserts (key ++ [c])
      (if truthy (lastEntry null inserts (key ++ [c])).2 then lastEntry null inserts (key ++ [c]) else e) := by
  split_ifs with htruthy
  · obtain ⟨v, hv, hcounts⟩ := (lastEntry_truthy hnull).mp htruthy
    have hentry : lastEntry null inserts (key ++ [c]) = (key ++ [c], v) := by simp [lastEntry, hv]
    rw [hentry]
    exact .inl ⟨v, hv, hcounts, rfl, by simp, List.prefix_rfl, fun p _ _ hpre _ _ => hpre.length_le⟩
  · have hnot : ∀ w, lastValue inserts (key ++ [c]) = some w → truthy w = false := by
      intro w hw
      by_contra hcounts
      exact htruthy ((lastEntry_truthy hnull).mpr ⟨w, hw, by simpa using hcounts⟩)
    rcases h with ⟨v, hv, hcounts, he, hne, hpre, hlongest⟩ | ⟨rfl, hnone⟩
    · refine .inl ⟨v, hv, hcounts, he, hne, hpre.trans (List.prefix_append _ _), fun p w hp hpre' hw hcounts' => ?_⟩
      rcases List.prefix_concat_iff.mp hpre' with rfl | hpre'
      · rw [hnot w hw] at hcounts'
        cases hcounts'
      · exact hlongest p w hp hpre' hw hcounts'
    · refine .inr ⟨rfl, fun p w hp hpre' hw => ?_⟩
      rcases List.prefix_concat_iff.mp hpre' with rfl | hpre'
      · exact hnot w hw
      · exact hnone p w hp hpre' hw

/-- Where the trie has no node, the rest of the key adds nothing. -/
theorem IsNearest.append_of_null {key : Bytes} (h : IsNearest null truthy inserts key e) (hnull : truthy null = false)
    (rest : Bytes) (hrest : ∀ p, p ≠ [] → p <+: rest → lastEntry null inserts (key ++ p) = ([], null)) :
    IsNearest null truthy inserts (key ++ rest) e := by
  induction rest using List.reverseRecOn with
  | nil => simpa using h
  | append_singleton rest c ih =>
    have hstep := IsNearest.concat hnull (ih fun p hp hpre => hrest p hp (hpre.trans (List.prefix_append _ _))) c
    rw [List.append_assoc] at hstep
    have hentry := hrest (rest ++ [c]) (by simp) List.prefix_rfl
    rw [hentry, if_neg (by simp [hnull])] at hstep
    exact hstep

/-- Under a key with a byte that indexes no child nothing was inserted. -/
theorem lastEntry_of_not_keyBytes (hkeys : ∀ e ∈ inserts, KeyBytes e.1) {key : Bytes} (h : ¬ KeyBytes key) :
    lastEntry null inserts key = ([], null) := by
  unfold lastEntry lastValue
  cases hlookup : inserts.reverse.lookup key with
  | none => rfl
  | some v =>
    have hmem : (key, v) ∈ inserts := List.mem_reverse.mp (mem_of_lookup_eq_some hlookup)
    exact absurd (hkeys _ hmem) h

/-- The walk of `find_nearest`, from the node that the bytes `key` have led to. -/
theorem findNearestFrom_sound (hnull : truthy null = false) (hkeys : ∀ e ∈ inserts, KeyBytes e.1)
    {key rest : Bytes} {t : TrieNode T} {e' : Bytes × T} (hrest : 0 ∉ rest)
    (hentry : ∀ p, KeyBytes p → (entryAt p t).getD ([], null) = lastEntry null inserts (key ++ p))
    (h : IsNearest null truthy inserts key e) (hfind : findNearestFrom truthy rest t e = some e') :
    IsNearest null truthy inserts (key ++ rest) e' := by
  induction rest generalizing key t e with
  | nil =>
    obtain rfl := Option.some.inj hfind
    simpa using h
  | cons c rest ih =>
    obtain ⟨value, chars⟩ := t
    rw [List.mem_cons, not_or] at hrest
    unfold findNearestFrom at hfind
    cases hi : charIndex c with
    | none => simp [hi] at hfind
    | some i =>
      have hbelow : ∀ p, KeyBytes p → ((chars i).bind (entryAt p)).getD ([], null) =
          lastEntry null inserts (key ++ c :: p) := by
        intro p hp
        have hcp : KeyBytes (c :: p) := by
          intro x hx
          rcases List.mem_cons.mp hx with rfl | hx
          · exact ⟨Ne.symm hrest.1, lt_of_charIndex hi⟩
          · exact hp x hx
        rw [← hentry (c :: p) hcp]
        simp only [entryAt, hi, Option.bind_some]
      cases hchild : chars i with
      | none =>
        simp only [hi, hchild, Option.some.injEq] at hfind
        subst hfind
        refine h.append_of_null hnull (c :: rest) fun p hp hpre => ?_
        obtain ⟨c', p, rfl⟩ := List.exists_cons_of_ne_nil hp
        obtain ⟨rfl, hpre'⟩ := List.cons_prefix_cons.mp hpre
        by_cases hkey : KeyBytes p
        · rw [← hbelow p hkey, hchild]
          rfl
        · refine lastEntry_of_not_keyBytes hkeys fun hall => hkey fun x hx => hall x ?_
          exact List.mem_append_right _ (List.mem_cons_of_mem _ hx)
      | some t =>
        simp only [hi, hchild] at hfind
        rw [hchild] at hbelow
        have hvalue : t.value = lastEntry null inserts (key ++ [c]) := hbelow [] (by simp [KeyBytes])
        have hstep := h.concat hnull c
        rw [← hvalue] at hstep
        have hbelow' : ∀ p, KeyBytes p → (entryAt p t).getD ([], null) =
            lastEntry null inserts (key ++ [c] ++ p) := fun p hp => by simpa using hbelow p hp
        simpa using ih hrest.2 hbelow' hstep hfind

end Nearest

/-- After any insertions, `find` gives the value last inserted under the key and `find_nearest` the
entry of the longest prefix. -/
theorem lookup_spec {null : T} {truthy : T → Bool} (hnull : truthy null = false)
    (inserts : List (Bytes × T)) (hkeys : ∀ e ∈ inserts, KeyBytes e.1) (key : Bytes) (hkey : KeyBytes key) :
    ∃ t e, ofInserts null inserts = some t ∧
      find null t key = some ((lastValue inserts key).getD null) ∧
      findNearest null truthy t key = some e ∧ IsNearest null truthy inserts key e := by
  obtain ⟨t, ht, hspec⟩ := ofInserts_spec null hkeys
  have hspec' : ∀ p, KeyBytes p → (entryAt p t).getD ([], null) = lastEntry null inserts ([] ++ p) := hspec
  have hsome : (findNearestFrom truthy key t ([], null)).isSome = true := by
    refine findNearestFrom_isSome_iff.mpr fun i c hc _ => ?_
    exact (hkey c (List.mem_of_getElem? hc)).2
  obtain ⟨e, he⟩ := Option.isSome_iff_exists.mp hsome
  have hnul : 0 ∉ key := fun h0 => (hkey 0 h0).1 rfl
  have hnearest : IsNearest null truthy inserts key e :=
    findNearestFrom_sound hnull hkeys hnul hspec' isNearest_nil he
  refine ⟨t, e, ht, ?_, ?_, hnearest⟩
  · rw [find, hkey.cString, findFrom_eq null hkey, hspec key hkey, lastEntry]
    cases lastValue inserts key <;> rfl
  · rw [findNearest, hkey.cString, he]

/-- Numbers as values, "/" and "/a/" as keys, and the lookup of "/a/b". -/
theorem lookup_spec_numbers :
    ∃ t e, ofInserts 0 [([47], 1), ([47, 97, 47], 2)] = some t ∧
      find 0 t [47, 97, 47, 98] = some 0 ∧ findNearest 0 (· != 0) t [47, 97, 47, 98] = some e ∧
      IsNearest 0 (· != 0) [([47], 1), ([47, 97, 47], 2)] [47, 97, 47, 98] e :=
  lookup_spec (T := Nat) rfl [([47], 1), ([47, 97, 47], 2)] (by simp [KeyBytes])
    [47, 97, 47, 98] (by simp [KeyBytes])

/-! ### Indices in bounds -/

/-- An insertion stays inside the arrays exactly when every byte of the key is a positive character. -/
theorem insertAt_isSome_iff {null : T} {entry : Bytes × T} {key : Bytes} {t : TrieNode T} :
    (insertAt null entry key t).isSome = true ↔ ∀ c ∈ key, c.toNat < 128 := by
  induction key generalizing t with
  | nil =>
    obtain ⟨value, chars⟩ := t
    simp [insertAt]
  | cons c key ih =>
    obtain ⟨value, chars⟩ := t
    simp only [insertAt, List.forall_mem_cons]
    cases hc : charIndex c with
    | none => simp [Nat.not_lt.mpr (charIndex_eq_none.mp hc)]
    | some i =>
      have hlt : c.toNat < 128 := lt_of_charIndex hc
      rw [← ih (t := (chars i).getD (empty null))]
      cases hchild : insertAt null entry key ((chars i).getD (empty null)) <;> simp [hlt, hchild]

/-- An insertion creates the nodes on the way of its key. -/
theorem entryAt_isSome_insertAt {null : T} {entry : Bytes × T} {key : Bytes} {t t' : TrieNode T}
    (h : insertAt null entry key t = some t') (key' : Bytes) :
    (entryAt key' t').isSome = true ↔ (entryAt key' t).isSome = true ∨ key' <+: key := by
  induction key generalizing t t' key' with
  | nil =>
    obtain ⟨value, chars⟩ := t
    obtain rfl := Option.some.inj h
    cases key' <;> simp [entryAt]
  | cons c key ih =>
    obtain ⟨value, chars⟩ := t
    simp only [insertAt] at h
    cases hi : charIndex c with
    | none => simp [hi] at h
    | some i =>
      simp only [hi] at h
      cases hchild : insertAt null entry key ((chars i).getD (empty null)) with
      | none => simp [hchild] at h
      | some child =>
        simp only [hchild, Option.some.injEq] at h
        subst h
        cases key' with
        | nil => simp [entryAt]
        | cons c' key' =>
          simp only [entryAt, List.cons_prefix_cons]
          cases hj : charIndex c' with
          | none =>
            have hne : c' ≠ c := by
              rintro rfl
              simp [hi] at hj
            simp [hne]
          | some j =>
            simp only [Option.bind_some]
            by_cases hij : j = i
            · subst hij
              have hcc : c' = c := charIndex_inj hj hi
              rw [Function.update_self, Option.bind_some, ih hchild key']
              -- a child created for the key has no node below it but itself
              cases chars j with
              | some t => simp [hcc]
              | none => cases key' <;> simp [hcc, entryAt, empty]
            · have hcc : c' ≠ c := by
                rintro rfl
                exact hij (Option.some.inj (hj.symm.trans hi))
              simp [Function.update_of_ne hij, hcc]

/-- The nodes of a trie are those on the ways of its keys. -/
theorem entryAt_isSome_ofInserts {null : T} {inserts : List (Bytes × T)} {t : TrieNode T}
    (h : ofInserts null inserts = some t) {key : Bytes} (hkey : key ≠ []) :
    (entryAt key t).isSome = true ↔ ∃ e ∈ inserts, key <+: cString e.1 := by
  induction inserts using List.reverseRecOn generalizing t with
  | nil =>
    obtain rfl : empty null = t := by simpa [ofInserts] using h
    cases key with
    | nil => exact absurd rfl hkey
    | cons c key => simp [empty, entryAt]
  | append_singleton inserts e ih =>
    rw [ofInserts, List.foldlM_append, Option.bind_eq_bind, Option.bind_eq_some_iff] at h
    obtain ⟨t₀, ht₀, hinsert⟩ := h
    have hinsert' : insertAt null e (cString e.1) t₀ = some t := by simpa [insert] using hinsert
    rw [entryAt_isSome_insertAt hinsert', ih ht₀]
    simp [or_and_right, exists_or]

/-- Filling a trie stays inside the arrays exactly when every byte of every key is a positive
character. -/
theorem ofInserts_isSome_iff {null : T} {inserts : List (Bytes × T)} :
    (ofInserts null inserts).isSome = true ↔ ∀ e ∈ inserts, ∀ c ∈ cString e.1, c.toNat < 128 := by
  induction inserts using List.reverseRecOn with
  | nil => simp [ofInserts]
  | append_singleton inserts e ih =>
    simp only [List.forall_mem_append, List.forall_mem_singleton]
    rw [← ih, ofInserts, List.foldlM_append]
    cases hfold : ofInserts null inserts with
    | none =>
      rw [show inserts.foldlM _ _ = none from hfold]
      simp
    | some t =>
      rw [show inserts.foldlM _ _ = some t from hfold]
      simpa [insert] using insertAt_isSome_iff

end TrieNode
end Latypus.Server
