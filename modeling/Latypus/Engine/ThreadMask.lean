import Mathlib.Data.List.Induction
import Mathlib.Data.List.Nodup
import Latypus.Io.Bits
import Latypus.Lib.BasicString
import Latypus.Lib.Result

/-! The masks of the threads of an engine: `string_to_thread_mask` and `thread_mask_to_string` of
protocol_thread.cc over the static tables of protocol.cc, and what protocol_engine.cc makes of them. -/

namespace Latypus.Engine
open Lib

/-- A `protocol_mask`, in which `P` stands for pointers to protocols. -/
structure ProtocolMask (P : Type) where
  proto : P
  name : List UInt8
  mask : BitVec 32
deriving DecidableEq

/-- The names behind the pointers, the map of the protocols and the table of the masks. -/
structure Registry (P : Type) where
  name : P → List UInt8
  protoMap : List (List UInt8 × P)
  table : List (ProtocolMask P)

/-- What ends `string_to_thread_mask` other than its return. The first three are fatal exits. -/
inductive MaskError where
  /-- "invalid server thread format <protocol/mask>: %s" -/
  | invalidFormat (protoMaskName : List UInt8)
  /-- "unknown protocol name: %s" -/
  | unknownProtocol (protoName : List UInt8)
  /-- "unknown server thread mask: %s for protocol: %s" -/
  | unknownMask (maskName protoName : List UInt8)
  /-- thrown by `substr` -/
  | outOfRange
  /-- not at the end after the given number of rounds -/
  | endless
deriving DecidableEq

namespace Registry
variable {P : Type} [DecidableEq P] (R : Registry P)

def substr (s : BasicString UInt8) (pos n : Nat) : Except MaskError (BasicString UInt8) :=
  (s.substr pos n).elim (.error .outOfRange) .ok

/-- The mask of one item of the list. -/
def itemMask (protoMaskName : BasicString UInt8) : Except MaskError (BitVec 32) := do
  let colon := protoMaskName.findFirstOf 47 0
  if colon = npos then throw (.invalidFormat protoMaskName.chars)
  let protoName ← substr protoMaskName 0 colon
  let maskName ← substr protoMaskName (sizeT ((colon : Int) + 1)) npos
  match R.protoMap.lookup protoName.chars with
  | none => throw (.unknownProtocol protoName.chars)
  | some proto =>
    let found := (R.table.find? fun ent => ent.name = maskName.chars ∧ proto = ent.proto).elim 0 ProtocolMask.mask
    if found ≠ 0 then return found else throw (.unknownMask maskName.chars protoName.chars)

/-- The loop from the position `next` of a comma, or from -1. -/
def maskLoop (str : BasicString UInt8) : Nat → Nat → BitVec 32 → Except MaskError (BitVec 32)
  | 0, _, _ => throw .endless
  | rounds + 1, next, threadMask => do
    let current := sizeT ((next : Int) + 1)
    let next := str.findFirstOf 44 current
    let protoMaskName ← substr str current (sizeT ((next : Int) - current))
    let threadMask := threadMask ||| (← R.itemMask protoMaskName)
    if next ≠ npos then maskLoop str rounds next threadMask else return threadMask

def stringToThreadMask (str : BasicString UInt8) : Except MaskError (BitVec 32) :=
  R.maskLoop str (str.size + 1) npos 0

/-- "protocol/mask" -/
def item (ent : ProtocolMask P) : List UInt8 := R.name ent.proto ++ [47] ++ ent.name

def threadMaskToString (threadMask : BitVec 32) : List UInt8 :=
  R.table.foldl (fun ss ent =>
    if threadMask &&& ent.mask ≠ 0 then (if 0 < ss.length then ss ++ [44] else ss) ++ R.item ent else ss) []

/-- `get_thread_masks` for the `proto_threads` of the configuration. -/
def getThreadMasks (protoThreads : List (BasicString UInt8 × Nat)) : Except MaskError (List (BitVec 32)) :=
  protoThreads.foldlM (fun masks thread =>
    (List.range thread.2).foldlM (fun masks _ => return masks ++ [← R.stringToThreadMask thread.1]) masks) []

def getAllThreadsMask (protoThreads : List (BasicString UInt8 × Nat)) : Except MaskError (BitVec 32) :=
  protoThreads.foldlM (fun mask thread =>
    (List.range thread.2).foldlM (fun mask _ => return mask ||| (← R.stringToThreadMask thread.1)) mask) 0

end Registry

/-- The constructor of `protocol_mask` with its default arguments; without a result its shift is undefined. -/
def register {P : Type} (table : List (ProtocolMask P)) (proto : P) (name : List UInt8) : Option (List (ProtocolMask P)) :=
  (Io.Bits.shiftLeftInt 1 (BitVec.ofNat 64 table.length)).map fun mask => table ++ [⟨proto, name, mask⟩]

/-- The constructors of some masks, one after another. -/
def registerAll {P : Type} (names : List (P × List UInt8)) : Option (List (ProtocolMask P)) :=
  names.foldlM (fun table p => register table p.1 p.2) []

/-- The union of the bits of some masks. -/
def union {P : Type} (es : List (ProtocolMask P)) : BitVec 32 := (es.map ProtocolMask.mask).foldr (· ||| ·) 0

/-- The names can be told apart in a text and in the table, and the bits in a mask. -/
structure Registry.Distinct {P : Type} (R : Registry P) : Prop where
  keys : (R.table.map fun e => (R.name e.proto, e.name)).Nodup
  plain : ∀ e ∈ R.table, ∀ t ∈ [R.name e.proto, e.name], 44 ∉ t ∧ 47 ∉ t
  single : ∀ e ∈ R.table, ∃ k < 32, e.mask = BitVec.twoPow 32 k
  bits : (R.table.map ProtocolMask.mask).Nodup
  registered : ∀ e ∈ R.table, R.protoMap.lookup (R.name e.proto) = some e.proto

section Union
variable {P : Type} {es es' : List (ProtocolMask P)} {e e' : ProtocolMask P}

theorem getLsbD_union (es : List (ProtocolMask P)) (k : Nat) : (union es).getLsbD k = es.any fun e => e.mask.getLsbD k := by
  induction es with
  | nil => exact BitVec.getLsbD_zero
  | cons e es ih =>
    rw [List.any_cons, ← ih, ← BitVec.getLsbD_or]
    rfl

/-- The order of the masks and repetitions do not matter. -/
theorem union_congr (h : ∀ e, e ∈ es ↔ e ∈ es') : union es = union es' := by
  refine BitVec.eq_of_getLsbD_eq fun k _ => ?_
  rw [getLsbD_union, getLsbD_union, Bool.eq_iff_iff, List.any_eq_true, List.any_eq_true]
  simp only [h]

theorem and_twoPow_ne_zero {m : BitVec 32} {k : Nat} (hk : k < 32) : m &&& BitVec.twoPow 32 k ≠ 0 ↔ m.getLsbD k = true := by
  rw [BitVec.and_twoPow]
  split_ifs with h
  · exact iff_of_true (fun h0 => by simpa [hk] using congrArg (BitVec.getLsbD · k) h0) h
  · exact iff_of_false (fun h0 => h0 rfl) h

end Union

namespace Registry
variable {P : Type} {R : Registry P} {es : List (ProtocolMask P)} {e e' : ProtocolMask P}

namespace Distinct

theorem eq_of_keys (h : R.Distinct) (he : e ∈ R.table) (he' : e' ∈ R.table) (hname : e.name = e'.name)
    (hproto : R.name e.proto = R.name e'.proto) : e = e' :=
  List.inj_on_of_nodup_map h.keys he he' (Prod.ext hproto hname)

theorem eq_of_mask (h : R.Distinct) (he : e ∈ R.table) (he' : e' ∈ R.table) (hmask : e.mask = e'.mask) : e = e' :=
  List.inj_on_of_nodup_map h.bits he he' hmask

theorem mask_ne_zero (h : R.Distinct) (he : e ∈ R.table) : e.mask ≠ 0 := by
  obtain ⟨k, hk, hmask⟩ := h.single e he
  intro h0
  have hbit : e.mask.getLsbD k = true := by simp [hmask, hk]
  rw [h0] at hbit
  simp at hbit

/-- A union has the bit of a mask of the table exactly when the mask is one of it. -/
theorem and_union_ne_zero (h : R.Distinct) (hes : ∀ e ∈ es, e ∈ R.table) (he : e ∈ R.table) :
    union es &&& e.mask ≠ 0 ↔ e ∈ es := by
  obtain ⟨k, hk, hmask⟩ := h.single e he
  rw [hmask, and_twoPow_ne_zero hk, getLsbD_union, List.any_eq_true]
  constructor
  · rintro ⟨e', he', hbit⟩
    obtain ⟨k', hk', hmask'⟩ := h.single e' (hes e' he')
    rw [hmask', BitVec.getLsbD_twoPow] at hbit
    obtain ⟨-, rfl⟩ : k' < 32 ∧ k' = k := by simpa [hk] using hbit
    obtain rfl := h.eq_of_mask he (hes e' he') (hmask.trans hmask'.symm)
    exact he'
  · intro he
    exact ⟨e, he, by simp [hmask, hk]⟩

theorem union_filter (h : R.Distinct) (hes : ∀ e ∈ es, e ∈ R.table) :
    union (R.table.filter fun e => union es &&& e.mask ≠ 0) = union es := by
  refine union_congr fun e => ?_
  rw [List.mem_filter, decide_eq_true_iff]
  constructor
  · rintro ⟨he, hmask⟩
    exact (h.and_union_ne_zero hes he).mp hmask
  · intro he
    exact ⟨hes e he, (h.and_union_ne_zero hes (hes e he)).mpr he⟩

end Distinct

/-! ### Printing -/

theorem item_ne_nil (R : Registry P) (e : ProtocolMask P) : R.item e ≠ [] := by simp [item]

theorem intercalate_append_cons (sep u v : List UInt8) (ts : List (List UInt8)) :
    sep.intercalate ((u ++ v) :: ts) = u ++ sep.intercalate (v :: ts) := by
  cases ts with
  | nil => rw [List.intercalate_singleton, List.intercalate_singleton]
  | cons t ts => rw [List.intercalate_cons_cons, List.intercalate_cons_cons, List.append_assoc, List.append_assoc, List.append_assoc]

theorem foldl_comma (ts : List (List UInt8)) {ss : List UInt8} (hss : ss ≠ []) :
    ts.foldl (fun ss t => (if 0 < ss.length then ss ++ [44] else ss) ++ t) ss = [44].intercalate (ss :: ts) := by
  induction ts generalizing ss with
  | nil => exact List.intercalate_singleton.symm
  | cons t ts ih =>
    rw [List.foldl_cons, if_pos (List.length_pos_of_ne_nil hss), ih (by simp), intercalate_append_cons,
      List.intercalate_cons_cons]

/-- What is printed are the items of the masks with a bit in the union, with commas between them. -/
theorem threadMaskToString_eq (R : Registry P) (m : BitVec 32) :
    R.threadMaskToString m = [44].intercalate ((R.table.filter fun e => m &&& e.mask ≠ 0).map R.item) := by
  have hfold : R.threadMaskToString m = ((R.table.filter fun e => m &&& e.mask ≠ 0).map R.item).foldl
      (fun ss t => (if 0 < ss.length then ss ++ [44] else ss) ++ t) [] := by
    rw [List.foldl_map, List.foldl_filter]
    simp only [decide_eq_true_iff]
    rfl
  rw [hfold]
  cases R.table.filter fun e => m &&& e.mask ≠ 0 with
  | nil => rfl
  | cons e es => exact foldl_comma (es.map R.item) (item_ne_nil R e)

/-! ### Reading -/

variable [DecidableEq P]

theorem substr_of_le {s : BasicString UInt8} {pos : Nat} (h : pos ≤ s.size) (n : Nat) :
    ∃ t, substr s pos n = .ok t ∧ t.chars = (s.chars.drop pos).take n := by
  obtain ⟨t, ht, hchars⟩ := BasicString.exists_substr h n
  exact ⟨t, by rw [substr, ht]; rfl, hchars⟩

theorem ok_bind {α β : Type} (a : α) (f : α → Except MaskError β) : (.ok a : Except MaskError α) >>= f = f a := rfl

/-- An item of the table is found under its names. -/
theorem Distinct.itemMask_eq (h : R.Distinct) (he : e ∈ R.table) {s : BasicString UInt8} (hs : s.chars = R.item e) :
    R.itemMask s = .ok e.mask := by
  have hproto := (h.plain e he (R.name e.proto) (by simp)).2
  have hlt := s.length_lt
  have hlen : s.chars.length = (R.name e.proto).length + (e.name.length + 1) := by simp [hs, item]
  unfold npos at hlt
  have hcolon : s.findFirstOf 47 0 = (R.name e.proto).length := by
    rw [BasicString.findFirstOf_of_drop (u := R.name e.proto) (v := e.name) (by simp [hs, item]) hproto, Nat.zero_add]
  have hbehind : sizeT ((s.findFirstOf 47 0 : Int) + 1) = (R.name e.proto).length + 1 := by
    rw [hcolon, ← Nat.cast_succ, sizeT_natCast (by omega)]
  obtain ⟨protoName, hprotoName, hprotoChars⟩ := substr_of_le (Nat.zero_le s.size) (s.findFirstOf 47 0)
  have hle : sizeT ((s.findFirstOf 47 0 : Int) + 1) ≤ s.size := by
    rw [hbehind, BasicString.size]
    omega
  obtain ⟨maskName, hmaskName, hmaskChars⟩ := substr_of_le hle npos
  rw [List.drop_zero, hcolon, hs, item, List.append_assoc, List.take_left] at hprotoChars
  have hdrop : s.chars.drop ((R.name e.proto).length + 1) = e.name := by simp [hs, item]
  rw [hbehind, hdrop, List.take_of_length_le (by unfold npos; omega)] at hmaskChars
  have hfind : R.table.find? (fun ent => ent.name = e.name ∧ e.proto = ent.proto) = some e := by
    obtain ⟨e', hfind⟩ : ∃ e', R.table.find? (fun ent => ent.name = e.name ∧ e.proto = ent.proto) = some e' :=
      Option.isSome_iff_exists.mp (List.find?_isSome.mpr ⟨e, he, by simp⟩)
    have hmatch := List.find?_some hfind
    obtain ⟨hname, hproto⟩ := of_decide_eq_true hmatch
    obtain rfl := h.eq_of_keys (List.mem_of_find?_eq_some hfind) he hname (congrArg R.name hproto.symm)
    exact hfind
  have hne : s.findFirstOf 47 0 ≠ npos := by
    rw [hcolon]
    unfold npos
    omega
  rw [itemMask]
  dsimp only
  rw [if_neg hne, hprotoName, hmaskName, ok_bind, ok_bind]
  simp only [hprotoChars, hmaskChars, h.registered e he, hfind, Option.elim_some, if_pos (h.mask_ne_zero he)]
  rfl

/-- The items of a list, one after another. -/
def readItems (R : Registry P) (items : List (BasicString UInt8)) (threadMask : BitVec 32) : Except MaskError (BitVec 32) :=
  items.foldlM (fun threadMask item => return threadMask ||| (← R.itemMask item)) threadMask

/-- The loop reads the parts of the text between commas, each once, and has rounds enough. -/
theorem maskLoop_eq (R : Registry P) (str : BasicString UInt8) {rounds next : Nat} (threadMask : BitVec 32)
    (hnext : sizeT ((next : Int) + 1) ≤ str.size)
    (hrounds : ((str.chars.drop (sizeT ((next : Int) + 1))).splitOn 44).length ≤ rounds) :
    ∃ items : List (BasicString UInt8),
      items.map BasicString.chars = (str.chars.drop (sizeT ((next : Int) + 1))).splitOn 44 ∧
        R.maskLoop str rounds next threadMask = R.readItems items threadMask := by
  induction rounds generalizing next threadMask with
  | zero => exact absurd (List.length_eq_zero_iff.mp (Nat.le_zero.mp hrounds)) (List.splitOn_ne_nil _ _)
  | succ rounds ih =>
    obtain ⟨item, hitem, hwalk⟩ := BasicString.walk hnext rfl (c := 44)
    have hsubstr : substr str (sizeT ((next : Int) + 1))
        (sizeT ((str.findFirstOf 44 (sizeT ((next : Int) + 1)) : Int) - sizeT ((next : Int) + 1))) = .ok item := by
      rw [substr, hitem]
      rfl
    rw [maskLoop]
    dsimp only
    rw [hsubstr, ok_bind]
    rcases hwalk with ⟨hend, hsplit⟩ | ⟨hmore, hnext', hsplit⟩
    · refine ⟨[item], hsplit.symm, ?_⟩
      simp only [if_neg (not_not.mpr hend)]
      rw [readItems, List.foldlM_cons]
      cases R.itemMask item <;> rfl
    · rw [hsplit, List.length_cons] at hrounds
      simp only [if_pos hmore]
      cases hmask : R.itemMask item with
      | error e =>
        obtain ⟨items, hitems, -⟩ := ih 0 hnext' (Nat.le_of_succ_le_succ hrounds)
        refine ⟨item :: items, ?_, ?_⟩
        · rw [hsplit, List.map_cons, hitems]
        · rw [readItems, List.foldlM_cons, hmask]
          rfl
      | ok m =>
        obtain ⟨items, hitems, hloop⟩ := ih (threadMask ||| m) hnext' (Nat.le_of_succ_le_succ hrounds)
        refine ⟨item :: items, ?_, ?_⟩
        · rw [hsplit, List.map_cons, hitems]
        · rw [ok_bind, hloop, readItems, readItems, List.foldlM_cons, hmask]
          rfl

/-- The string is read as its parts between commas. -/
theorem stringToThreadMask_eq (R : Registry P) (str : BasicString UInt8) :
    ∃ items : List (BasicString UInt8), items.map BasicString.chars = str.chars.splitOn 44 ∧
      R.stringToThreadMask str = R.readItems items 0 := by
  have hstart : sizeT ((npos : Int) + 1) = 0 := by decide
  have hdrop : str.chars.drop (sizeT ((npos : Int) + 1)) = str.chars := by rw [hstart, List.drop_zero]
  have hrounds : ((str.chars.drop (sizeT ((npos : Int) + 1))).splitOn 44).length ≤ str.size + 1 := by
    rw [hdrop]
    exact BasicString.length_splitOn_le 44 str.chars
  obtain ⟨items, hitems, hloop⟩ := maskLoop_eq R str 0 (hstart.trans_le (Nat.zero_le _)) hrounds
  exact ⟨items, hdrop ▸ hitems, hloop⟩

theorem Distinct.readItems_eq (h : R.Distinct) (hes : ∀ e ∈ es, e ∈ R.table) {items : List (BasicString UInt8)}
    (hitems : items.map BasicString.chars = es.map R.item) (m : BitVec 32) :
    R.readItems items m = .ok (m ||| union es) := by
  induction es generalizing items m with
  | nil =>
    obtain rfl := List.map_eq_nil_iff.mp hitems
    exact congrArg Except.ok BitVec.or_zero.symm
  | cons e es ih =>
    obtain ⟨item, items, rfl, hitem, hrest⟩ := List.map_eq_cons_iff.mp hitems
    have hmask := h.itemMask_eq (hes e List.mem_cons_self) hitem
    have hih := ih (fun e he => hes e (List.mem_cons_of_mem _ he)) hrest (m ||| e.mask)
    rw [readItems, List.foldlM_cons, hmask]
    refine hih.trans ?_
    rw [BitVec.or_assoc]
    rfl

omit [DecidableEq P] in
theorem Distinct.comma_notMem_item (h : R.Distinct) (he : e ∈ R.table) : 44 ∉ R.item e := by
  have hproto := (h.plain e he (R.name e.proto) (by simp)).1
  have hname := (h.plain e he e.name (by simp)).1
  simp [item, hproto, hname]

theorem Distinct.read_join (h : R.Distinct) (hes : ∀ e ∈ es, e ∈ R.table) (hne : es ≠ []) {str : BasicString UInt8}
    (hstr : str.chars = [44].intercalate (es.map R.item)) : R.stringToThreadMask str = .ok (union es) := by
  have hcomma : ∀ t ∈ es.map R.item, 44 ∉ t := by
    intro t ht
    obtain ⟨e, he, rfl⟩ := List.mem_map.mp ht
    exact h.comma_notMem_item (hes e he)
  obtain ⟨items, hitems, hread⟩ := R.stringToThreadMask_eq str
  rw [hstr, List.splitOn_intercalate _ hcomma (by simpa using hne)] at hitems
  rw [hread, h.readItems_eq hes hitems, BitVec.ofNat_eq_ofNat, BitVec.zero_or]

/-- Every union of the bits of the table is read back from its text, and a list of items in any order,
with repetitions or without, is read as the union of their bits. -/
theorem threadMask_roundTrip {P : Type} [DecidableEq P] {R : Registry P} (h : R.Distinct) {es : List (ProtocolMask P)}
    (hes : ∀ e ∈ es, e ∈ R.table) (hne : es ≠ []) (str : BasicString UInt8) :
    (str.chars = R.threadMaskToString (union es) → R.stringToThreadMask str = .ok (union es)) ∧
      (str.chars = [44].intercalate (es.map R.item) → R.stringToThreadMask str = .ok (union es)) := by
  refine ⟨fun hstr => ?_, h.read_join hes hne⟩
  have hfilter : ∀ e ∈ R.table.filter (fun e => union es &&& e.mask ≠ 0), e ∈ R.table := fun e he => (List.mem_filter.mp he).1
  have hne' : R.table.filter (fun e => union es &&& e.mask ≠ 0) ≠ [] := by
    obtain ⟨e, he⟩ := List.exists_mem_of_ne_nil es hne
    refine List.ne_nil_of_mem (a := e) (List.mem_filter.mpr ⟨hes e he, ?_⟩)
    exact decide_eq_true ((h.and_union_ne_zero hes (hes e he)).mpr he)
  rw [R.threadMaskToString_eq] at hstr
  rw [h.read_join hfilter hne' hstr, h.union_filter hes]

/-! ### The tables of a program -/

omit [DecidableEq P] in
/-- The constructors give one bit after another, as long as there are any. -/
theorem registerAll_eq {names : List (P × List UInt8)} {table : List (ProtocolMask P)} (h : registerAll names = some table) :
    table.map (fun e => (e.proto, e.name)) = names ∧ names.length ≤ 32 ∧
      table.map ProtocolMask.mask = (List.range names.length).map (BitVec.twoPow 32) := by
  induction names using List.reverseRecOn generalizing table with
  | nil =>
    obtain rfl := Option.some.inj h
    exact ⟨rfl, Nat.zero_le 32, rfl⟩
  | append_singleton names p ih =>
    rw [registerAll, List.foldlM_append, Option.bind_eq_bind, Option.bind_eq_some_iff] at h
    obtain ⟨table', htable', h⟩ := h
    obtain ⟨hnames, hle, hmasks⟩ := ih htable'
    have hlen : table'.length = names.length := by
      rw [← hnames, List.length_map]
    rw [List.foldlM_cons] at h
    simp only [List.foldlM_nil, bind_pure] at h
    rw [register, hlen] at h
    obtain ⟨mask, hshift, rfl⟩ := Option.map_eq_some_iff.mp h
    have hlt : names.length < 32 := by
      by_contra hge
      rw [Io.Bits.shiftLeftInt_wide (not_lt.mp hge) (by omega)] at hshift
      cases hshift
    obtain rfl := Option.some.inj ((Io.Bits.shiftLeftInt_one hlt).symm.trans hshift)
    refine ⟨by rw [List.map_append, hnames]; rfl, by rw [List.length_append]; exact hlt, ?_⟩
    rw [List.map_append, hmasks, List.length_append, List.length_singleton, List.range_succ, List.map_append]
    rfl

omit [DecidableEq P] in
/-- No two masks are alike. -/
theorem nodup_of_registerAll {names : List (P × List UInt8)} {table : List (ProtocolMask P)}
    (h : registerAll names = some table) : (table.map ProtocolMask.mask).Nodup := by
  obtain ⟨-, hle, hmasks⟩ := registerAll_eq h
  rw [hmasks]
  refine List.Nodup.map_on (fun i hi j hj heq => ?_) List.nodup_range
  have hbit := congrArg (BitVec.getLsbD · i) heq
  rw [List.mem_range] at hi
  have hi32 : i < 32 := by omega
  simpa [BitVec.getLsbD_twoPow, hi32, eq_comm] using hbit

omit [DecidableEq P] in
/-- What the constructors build is distinct when the names are. -/
theorem distinct_of_registerAll {names : List (P × List UInt8)} (h : registerAll names = some R.table)
    (hkeys : (names.map fun p => (R.name p.1, p.2)).Nodup)
    (hplain : ∀ p ∈ names, ∀ t ∈ [R.name p.1, p.2], 44 ∉ t ∧ 47 ∉ t)
    (hmap : ∀ p ∈ names, R.protoMap.lookup (R.name p.1) = some p.1) : R.Distinct := by
  obtain ⟨hnames, hle, hmasks⟩ := registerAll_eq h
  have hmem : ∀ e ∈ R.table, (e.proto, e.name) ∈ names := fun e he => hnames ▸ List.mem_map_of_mem he
  have hsingle : ∀ e ∈ R.table, ∃ k < names.length, e.mask = BitVec.twoPow 32 k := by
    intro e he
    have hmask : e.mask ∈ R.table.map ProtocolMask.mask := List.mem_map_of_mem he
    rw [hmasks] at hmask
    obtain ⟨k, hk, hmask⟩ := List.mem_map.mp hmask
    exact ⟨k, List.mem_range.mp hk, hmask.symm⟩
  constructor
  · rw [← hnames, List.map_map] at hkeys
    exact hkeys
  · exact fun e he => hplain _ (hmem e he)
  · intro e he
    obtain ⟨k, hk, hmask⟩ := hsingle e he
    exact ⟨k, by omega, hmask⟩
  · exact nodup_of_registerAll h
  · exact fun e he => hmap _ (hmem e he)

/-- The mask of all threads is the union of the masks of the threads. -/
theorem getAllThreadsMask_eq (R : Registry P) (protoThreads : List (BasicString UInt8 × Nat)) :
    R.getAllThreadsMask protoThreads = (R.getThreadMasks protoThreads).map fun masks => masks.foldl (· ||| ·) 0 := by
  have hstep (str : BasicString UInt8) (masks : List (BitVec 32)) :
      (do return masks.foldl (· ||| ·) 0 ||| (← R.stringToThreadMask str)) =
        (do return masks ++ [← R.stringToThreadMask str] : Except MaskError (List (BitVec 32))).map
          fun masks => masks.foldl (· ||| ·) 0 := by
    cases R.stringToThreadMask str with
    | error e => rfl
    | ok m =>
      have happend : (masks ++ [m]).foldl (· ||| ·) 0 = masks.foldl (· ||| ·) 0 ||| m := List.foldl_append
      exact congrArg Except.ok happend.symm
  refine foldlM_map_eq (b := []) (g := fun masks : List (BitVec 32) => masks.foldl (· ||| ·) 0) fun masks thread => ?_
  exact foldlM_map_eq fun masks _ => hstep thread.1 masks

end Registry

/-- The protocols that have masks. -/
inductive HttpProtocol where
  | client | server
deriving DecidableEq

namespace HttpProtocol

/-- "http_client", "http_server" -/
def name : HttpProtocol → List UInt8
  | client => [104, 116, 116, 112, 95, 99, 108, 105, 101, 110, 116]
  | server => [104, 116, 116, 112, 95, 115, 101, 114, 118, 101, 114]

/-- "connect", "worker", "keepalive" and "listener", "router", "keepalive", "worker" -/
def masks : List (HttpProtocol × List UInt8) := [
  (client, [99, 111, 110, 110, 101, 99, 116]), (client, [119, 111, 114, 107, 101, 114]),
  (client, [107, 101, 101, 112, 97, 108, 105, 118, 101]), (server, [108, 105, 115, 116, 101, 110, 101, 114]),
  (server, [114, 111, 117, 116, 101, 114]), (server, [107, 101, 101, 112, 97, 108, 105, 118, 101]),
  (server, [119, 111, 114, 107, 101, 114])]

def registry : Registry HttpProtocol where
  name := name
  protoMap := [(name client, client), (name server, server)]
  table := (registerAll masks).getD []

/-- The masks of this program can be told apart. -/
theorem registry_distinct : registry.Distinct :=
  have hregister : registerAll masks = some registry.table := rfl
  Registry.distinct_of_registerAll hregister (by decide) (by decide) (by decide)

/-- The masks of the listener and of the workers of the client, out of their order. -/
def listenerWorker : List (ProtocolMask HttpProtocol) :=
  [⟨server, [108, 105, 115, 116, 101, 110, 101, 114], 8⟩, ⟨client, [119, 111, 114, 107, 101, 114], 2⟩]

theorem threadMask_roundTrip_listenerWorker :
    ∃ str : BasicString UInt8, str.chars = registry.threadMaskToString 10 ∧ registry.stringToThreadMask str = .ok 10 :=
  have hmem : ∀ e ∈ listenerWorker, e ∈ registry.table := by decide
  ⟨⟨registry.threadMaskToString 10, by decide⟩, rfl,
    (Registry.threadMask_roundTrip registry_distinct hmem (by decide) _).1 rfl⟩

/-- Without an item there is still the empty part, which has no slash. -/
theorem threadMask_roundTrip_nil : ¬ ∀ es, (∀ e ∈ es, e ∈ registry.table) → ∀ str : BasicString UInt8,
    str.chars = [44].intercalate (es.map registry.item) → registry.stringToThreadMask str = .ok (union es) := by
  intro h
  have hread : registry.stringToThreadMask ⟨[], by decide⟩ = .error (.invalidFormat []) := rfl
  have hunion := hread.symm.trans (h [] (by simp) ⟨[], by decide⟩ rfl)
  cases hunion

end HttpProtocol
end Latypus.Engine
