import Latypus.Net.Url

/-! `socket_addr`: addresses are read from a port, an IPv4 address and a port, or an IPv6 address in
brackets and a port. The form is told by the last bracket of each kind and the last colon, and the port is
read with `atoi` and narrowed to 16 bits. `inet_pton` and `inet_ntop` are parameters. -/

namespace Latypus.Net
open Lib
open Http (Bytes decimal cString)

/-- The functions of the two families. -/
structure Inet where
  pton4 : Bytes → Option (BitVec 32)
  pton6 : Bytes → Option (BitVec 128)
  ntop4 : BitVec 32 → Bytes
  ntop6 : BitVec 128 → Bytes

inductive Family
  | inet | inet6
deriving DecidableEq, Repr

/-- An address with its port in the byte order of the host. -/
inductive SocketAddr
  | inet (addr : BitVec 32) (port : Nat)
  | inet6 (addr : BitVec 128) (port : Nat)
deriving DecidableEq, Repr

/-- The port as it is passed to `htons`. -/
def narrow (port : Int) : Nat := (port % 2 ^ 16).toNat

section Functions
variable (inet : Inet)

/-- The second half of `string_to_addr`, on the part with the address and the number of the port. -/
def storeAddr (family : Family) (addressPart : Bytes) (port : Int) : Option SocketAddr :=
  if port ≤ 0 then none
  else
    match family with
    | .inet =>
      if addressPart = [] then some (.inet 0 (narrow port))
      else (inet.pton4 addressPart).map fun addr => .inet addr (narrow port)
    | .inet6 =>
      if addressPart = [] then some (.inet6 0 (narrow port))
      else (inet.pton6 addressPart).map fun addr => .inet6 addr (narrow port)

/-- `string_to_addr`, with `none` for -1. -/
def stringToAddr (addrSpec : Bytes) : Option SocketAddr :=
  let lastColon := findLast 58 addrSpec
  match findLast 91 addrSpec, findLast 93 addrSpec with
  | some _, none => none
  | none, some _ => none
  | some openBracket, some closeBracket =>
    if openBracket ≠ 0 ∨ closeBracket < 1 ∨ lastColon ≠ some (closeBracket + 1) then none
    else
      storeAddr inet .inet6
        (cString ((addrSpec.drop (openBracket + 1)).take (closeBracket - openBracket - 1)))
        (atoi (addrSpec.drop (closeBracket + 2)))
  | none, none =>
    match lastColon with
    | none => storeAddr inet .inet [] (atoi addrSpec)
    | some colon => storeAddr inet .inet (cString (addrSpec.take colon)) (atoi (addrSpec.drop (colon + 1)))

/-- `addr_to_string`; the port is at the same place in both kinds of address. -/
def addrToString : SocketAddr → Bytes
  | .inet addr port => inet.ntop4 addr ++ 58 :: decimal port
  | .inet6 addr port => 91 :: (inet.ntop6 addr ++ 93 :: 58 :: decimal port)

end Functions

/-! ### The forms -/

/-- A string of one of the three shapes, cut into its address and its port. -/
inductive Parts (s : Bytes) : Family → Bytes → Bytes → Prop
  | port (hcolon : 58 ∉ s) (hopen : 91 ∉ s) (hclose : 93 ∉ s) : Parts s .inet [] s
  | inet {a t : Bytes} (hs : s = a ++ 58 :: t) (hcolon : 58 ∉ t) (hopen : 91 ∉ s) (hclose : 93 ∉ s) :
      Parts s .inet a t
  | inet6 {a t : Bytes} (hs : s = 91 :: (a ++ 93 :: 58 :: t)) (hcolon : 58 ∉ t) (hopen : 91 ∉ a ++ t)
      (hclose : 93 ∉ t) : Parts s .inet6 a t

/-- A decimal number that is a port. -/
def IsPort (t : Bytes) (port : Nat) : Prop :=
  t ≠ [] ∧ (∀ c ∈ t, Http.isDigit c = true) ∧ Http.digitsValue t = port ∧ 1 ≤ port ∧ port ≤ 65535

/-- The address that a text denotes, all zeroes when it is omitted. -/
def Denotes4 (inet : Inet) (a : Bytes) (addr : BitVec 32) : Prop := a = [] ∧ addr = 0 ∨ inet.pton4 a = some addr

def Denotes6 (inet : Inet) (a : Bytes) (addr : BitVec 128) : Prop := a = [] ∧ addr = 0 ∨ inet.pton6 a = some addr

/-- PORT, [IPV4]:PORT and [[IPV6]]:PORT, with the address and the port that are written. -/
inductive Denotes (inet : Inet) (s : Bytes) : SocketAddr → Prop
  | port {port : Nat} (ht : IsPort s port) : Denotes inet s (.inet 0 port)
  | inet {a t : Bytes} {addr : BitVec 32} {port : Nat} (hs : s = a ++ 58 :: t) (ha : Denotes4 inet a addr)
      (ht : IsPort t port) : Denotes inet s (.inet addr port)
  | inet6 {a t : Bytes} {addr : BitVec 128} {port : Nat} (hs : s = 91 :: (a ++ 93 :: 58 :: t))
      (ha : Denotes6 inet a addr) (ht : IsPort t port) : Denotes inet s (.inet6 addr port)

/-- What is documented of `inet_pton` and `inet_ntop`: a text of an address has no other characters than
digits and what separates them, and an address is printed so that it is read back. -/
structure Inet.Faithful (inet : Inet) : Prop where
  text4 : ∀ t addr, inet.pton4 t = some addr → t ≠ [] ∧ ∀ c ∈ t, c = 46 ∨ Http.isDigit c = true
  text6 : ∀ t addr, inet.pton6 t = some addr →
    t ≠ [] ∧ ∀ c ∈ t, c = 46 ∨ c = 58 ∨ Http.isDigit c = true ∨ (65 ≤ c ∧ c ≤ 70) ∨ (97 ≤ c ∧ c ≤ 102)
  print4 : ∀ addr, (addr = 0 ∨ ∃ t, inet.pton4 t = some addr) → inet.pton4 (inet.ntop4 addr) = some addr
  print6 : ∀ addr, (addr = 0 ∨ ∃ t, inet.pton6 t = some addr) → inet.pton6 (inet.ntop6 addr) = some addr

/-- The string is read as what it denotes if it is of one of the forms and refused otherwise, and what
is read is read back when it is printed. -/
def ReadExactly (inet : Inet) (s : Bytes) : Prop :=
  (∀ addr, stringToAddr inet s = some addr ↔ Denotes inet s addr) ∧
    ∀ addr, stringToAddr inet s = some addr → stringToAddr inet (addrToString inet addr) = some addr

/-- A text of an address, which may be missing. -/
def Readable (inet : Inet) : Family → Bytes → Prop
  | .inet, a => a = [] ∨ (inet.pton4 a).isSome = true
  | .inet6, a => a = [] ∨ (inet.pton6 a).isSome = true

/-- Where the string has one of the three shapes, its address is readable up to a NUL and `atoi` finds a
positive number behind it, then the port is a port and nothing else, and the address has no NUL. -/
def Careful (inet : Inet) (s : Bytes) : Prop :=
  ∀ family a t, Parts s family a t → Readable inet family (cString a) → 0 < atoi t →
    (∃ port, IsPort t port) ∧ 0 ∉ a

/-! ### Cutting a string -/

section Parts
variable {inet : Inet} {s a a' t t' : Bytes} {family family' : Family} {addr : SocketAddr}

theorem notMem_bracket_iff : (91 : UInt8) ∉ a ++ 93 :: 58 :: t ↔ 91 ∉ a ++ t := by
  simp

theorem stringToAddr_of_parts (h : Parts s family a t) :
    stringToAddr inet s = storeAddr inet family (cString a) (atoi t) := by
  unfold stringToAddr
  cases h with
  | port hcolon hopen hclose =>
    rw [findLast_eq_none_iff.mpr hcolon, findLast_eq_none_iff.mpr hopen, findLast_eq_none_iff.mpr hclose]
    rfl
  | inet hs hcolon hopen hclose =>
    have hlast : findLast 58 s = some a.length := hs ▸ findLast_append_cons hcolon a
    have hdrop : s.drop (a.length + 1) = t := by
      rw [hs, ← List.drop_drop, List.drop_left]
      rfl
    rw [hlast, findLast_eq_none_iff.mpr hopen, findLast_eq_none_iff.mpr hclose]
    dsimp only
    rw [hdrop, hs, List.take_left]
  | inet6 hs hcolon hopen hclose =>
    have hopen' := notMem_bracket_iff.mpr hopen
    have hclose' : (93 : UInt8) ∉ 58 :: t := by simp [hclose]
    have hfirst : findLast 91 s = some 0 := hs ▸ findLast_append_cons hopen' []
    have hbracket : findLast 93 s = some (a.length + 1) := hs ▸ findLast_append_cons hclose' (91 :: a)
    have hlast : findLast 58 s = some (a.length + 2) := by
      have h := findLast_append_cons hcolon (91 :: a ++ [93])
      rw [hs]
      simpa using h
    have htake : (s.drop (0 + 1)).take (a.length + 1 - 0 - 1) = a := by
      rw [hs]
      exact List.take_left
    have hdrop : s.drop (a.length + 1 + 2) = t := by
      have hs' : s = (91 :: a ++ [93, 58]) ++ t := by
        rw [hs]
        simp
      rw [hs']
      exact List.drop_left' (by simp)
    rw [hfirst, hbracket, hlast]
    dsimp only
    rw [if_neg (by simp), htake, hdrop]

/-- What is read has one of the shapes. -/
theorem exists_parts (h : stringToAddr inet s = some addr) : ∃ family a t, Parts s family a t := by
  unfold stringToAddr at h
  cases hopen : findLast 91 s with
  | none =>
    cases hclose : findLast 93 s with
    | none =>
      rw [findLast_eq_none_iff] at hopen hclose
      by_cases hmem : 58 ∈ s
      · obtain ⟨a, t, hs, hcolon⟩ := exists_eq_append_cons_of_mem hmem
        exact ⟨_, _, _, .inet hs hcolon hopen hclose⟩
      · exact ⟨_, _, _, .port hmem hopen hclose⟩
    | some closeBracket =>
      rw [hopen, hclose] at h
      cases h
  | some openBracket =>
    cases hclose : findLast 93 s with
    | none =>
      rw [hopen, hclose] at h
      cases h
    | some closeBracket =>
      rw [hopen, hclose] at h
      dsimp only at h
      split_ifs at h with hshape
      obtain ⟨hzero, -, hcolon⟩ := not_or.mp hshape |>.imp not_not.mp fun h => (not_or.mp h).imp id not_not.mp
      subst hzero
      obtain ⟨l, r, hs, hr, hlen⟩ := findLast_eq_some_iff.mp hopen
      obtain rfl := List.length_eq_zero_iff.mp hlen
      obtain ⟨l, r', hs', hr', rfl⟩ := findLast_eq_some_iff.mp hclose
      obtain ⟨l', t, hs'', ht, hlen'⟩ := findLast_eq_some_iff.mp hcolon
      -- the colon is right behind the closing bracket
      obtain ⟨rfl, htail⟩ : l ++ [93] = l' ∧ r' = 58 :: t := by
        refine List.append_inj ?_ (by simp [hlen'])
        rw [List.append_assoc, ← hs'']
        exact hs'.symm
      cases l with
      | nil =>
        rw [hs] at hs'
        simp at hs'
      | cons b a =>
        rw [hs] at hs'
        obtain ⟨rfl, rfl⟩ := List.cons.inj hs'
        rw [htail] at hr hr' hs
        exact ⟨_, a, t, .inet6 hs ht (notMem_bracket_iff.mp hr) fun hmem => hr' (List.mem_cons_of_mem _ hmem)⟩

theorem Parts.unique (h : Parts s family a t) (h' : Parts s family' a' t') : family = family' ∧ a = a' ∧ t = t' := by
  have hinet : ∀ a t : Bytes, 58 ∈ a ++ 58 :: t := by simp
  have hinet6 : ∀ a t : Bytes, 91 ∈ 91 :: (a ++ 93 :: 58 :: t) := by simp
  cases h with
  | port hcolon hopen _ =>
    cases h' with
    | port => exact ⟨rfl, rfl, rfl⟩
    | inet hs => exact absurd (hs ▸ hinet _ _) hcolon
    | inet6 hs => exact absurd (hs ▸ hinet6 _ _) hopen
  | inet hs ht hopen _ =>
    cases h' with
    | port hcolon => exact absurd (hs ▸ hinet _ _) hcolon
    | inet hs' ht' => exact ⟨rfl, append_cons_inj ht ht' (hs.symm.trans hs')⟩
    | inet6 hs' => exact absurd (hs' ▸ hinet6 _ _) hopen
  | inet6 hs ht =>
    cases h' with
    | port _ hopen => exact absurd (hs ▸ hinet6 _ _) hopen
    | inet _ _ hopen => exact absurd (hs ▸ hinet6 _ _) hopen
    | inet6 hs' ht' =>
      have heq : a ++ [93] ++ 58 :: t = a' ++ [93] ++ 58 :: t' := by
        simpa using (List.cons.inj (hs.symm.trans hs')).2
      obtain ⟨ha, rfl⟩ := append_cons_inj ht ht' heq
      exact ⟨rfl, List.append_inj_left' ha rfl, rfl⟩

end Parts

/-! ### What the forms denote -/

section Forms
variable {inet : Inet} {s a t : Bytes} {family : Family} {addr : SocketAddr} {port : Nat}

theorem IsPort.notMem (h : IsPort t port) {c : UInt8} (hc : Http.isDigit c = false) : c ∉ t := by
  intro hmem
  rw [h.2.1 c hmem] at hc
  cases hc

theorem IsPort.atoi_eq (h : IsPort t port) : atoi t = port := by
  obtain ⟨hne, hdigits, hvalue, -, hle⟩ := h
  obtain ⟨c, rest, rfl⟩ := List.exists_cons_of_ne_nil hne
  rw [atoi, Http.atoi_of_isDigit (hdigits c List.mem_cons_self), hvalue, Int.min_eq_left (by omega),
    Int.max_eq_right (by omega)]
  exact Int.bmod_eq_of_le (by omega) (by omega)

theorem narrow_of_le (h : port ≤ 65535) : narrow port = port := by
  unfold narrow
  omega

theorem isPort_decimal (hlow : 1 ≤ port) (hhigh : port ≤ 65535) : IsPort (decimal port) port := by
  obtain ⟨hne, hdigits, hatoi⟩ := Http.decimal_spec (Int.natCast_nonneg port)
  refine ⟨hne, hdigits, ?_, hlow, hhigh⟩
  obtain ⟨c, rest, hdecimal⟩ := List.exists_cons_of_ne_nil hne
  rw [hdecimal] at hatoi hdigits ⊢
  rw [Http.atoi_of_isDigit (hdigits c List.mem_cons_self)] at hatoi
  exact Int.ofNat.inj hatoi

theorem storeAddr_inet {addr : BitVec 32} (hf : inet.Faithful) (ha : Denotes4 inet a addr) (hlow : 1 ≤ port)
    (hhigh : port ≤ 65535) : storeAddr inet .inet a port = some (.inet addr port) := by
  unfold storeAddr
  rw [if_neg (by omega), narrow_of_le hhigh]
  rcases ha with ⟨rfl, rfl⟩ | ha
  · rfl
  · dsimp only
    rw [if_neg (hf.text4 a addr ha).1, ha]
    rfl

theorem storeAddr_inet6 {addr : BitVec 128} (hf : inet.Faithful) (ha : Denotes6 inet a addr) (hlow : 1 ≤ port)
    (hhigh : port ≤ 65535) : storeAddr inet .inet6 a port = some (.inet6 addr port) := by
  unfold storeAddr
  rw [if_neg (by omega), narrow_of_le hhigh]
  rcases ha with ⟨rfl, rfl⟩ | ha
  · rfl
  · dsimp only
    rw [if_neg (hf.text6 a addr ha).1, ha]
    rfl

theorem Denotes4.notMem {addr : BitVec 32} (hf : inet.Faithful) (ha : Denotes4 inet a addr) {c : UInt8}
    (hc : c = 0 ∨ c = 91 ∨ c = 93) : c ∉ a := by
  rcases ha with ⟨rfl, -⟩ | ha
  · exact List.not_mem_nil
  · intro hmem
    have htext := (hf.text4 a addr ha).2 c hmem
    rcases hc with rfl | rfl | rfl <;> revert htext <;> decide

theorem Denotes6.notMem {addr : BitVec 128} (hf : inet.Faithful) (ha : Denotes6 inet a addr) {c : UInt8}
    (hc : c = 0 ∨ c = 91 ∨ c = 93) : c ∉ a := by
  rcases ha with ⟨rfl, -⟩ | ha
  · exact List.not_mem_nil
  · intro hmem
    have htext := (hf.text6 a addr ha).2 c hmem
    rcases hc with rfl | rfl | rfl <;> revert htext <;> decide

/-- A string of one of the forms is cut as it is written. -/
theorem Denotes.parts (hf : inet.Faithful) (h : Denotes inet s addr) : ∃ family a t port,
    Parts s family a t ∧ IsPort t port ∧ 0 ∉ a ∧ storeAddr inet family a port = some addr := by
  cases h with
  | port ht =>
    refine ⟨_, _, _, _, .port (ht.notMem rfl) (ht.notMem rfl) (ht.notMem rfl), ht, List.not_mem_nil, ?_⟩
    exact storeAddr_inet hf (.inl ⟨rfl, rfl⟩) ht.2.2.2.1 ht.2.2.2.2
  | inet hs ha ht =>
    have hnot : ∀ c : UInt8, c = 91 ∨ c = 93 → c ∉ s := by
      intro c hc hmem
      rw [hs] at hmem
      rcases List.mem_append.mp hmem with hmem | hmem
      · exact ha.notMem hf (.inr hc) hmem
      · rcases hc with rfl | rfl
        · exact ht.notMem rfl ((List.mem_cons.mp hmem).resolve_left (by decide))
        · exact ht.notMem rfl ((List.mem_cons.mp hmem).resolve_left (by decide))
    refine ⟨_, _, _, _, .inet hs (ht.notMem rfl) (hnot 91 (.inl rfl)) (hnot 93 (.inr rfl)), ht, ?_, ?_⟩
    · exact ha.notMem hf (.inl rfl)
    · exact storeAddr_inet hf ha ht.2.2.2.1 ht.2.2.2.2
  | inet6 hs ha ht =>
    refine ⟨_, _, _, _, .inet6 hs (ht.notMem rfl) ?_ (ht.notMem rfl), ht, ha.notMem hf (.inl rfl), ?_⟩
    · intro hmem
      rcases List.mem_append.mp hmem with hmem | hmem
      · exact ha.notMem hf (.inr (.inl rfl)) hmem
      · exact ht.notMem rfl hmem
    · exact storeAddr_inet6 hf ha ht.2.2.2.1 ht.2.2.2.2

theorem Denotes.stringToAddr_eq (hf : inet.Faithful) (h : Denotes inet s addr) : stringToAddr inet s = some addr := by
  obtain ⟨family, a, t, port, hparts, ht, ha, hstore⟩ := h.parts hf
  rw [stringToAddr_of_parts hparts, Http.cString_of_notMem ha, ht.atoi_eq, hstore]

/-- What is read from a port and an address without more denotes what is stored. -/
theorem denotes_of_parts (hparts : Parts s family a t) (ht : IsPort t port)
    (h : storeAddr inet family a port = some addr) : Denotes inet s addr := by
  unfold storeAddr at h
  rw [if_neg (by have := ht.2.2.2.1; omega), narrow_of_le ht.2.2.2.2] at h
  cases hparts with
  | port =>
    obtain rfl := Option.some.inj h
    exact .port ht
  | inet hs =>
    dsimp only at h
    split_ifs at h with ha
    · obtain rfl := Option.some.inj h
      exact .inet hs (.inl ⟨ha, rfl⟩) ht
    · obtain ⟨x, hx, rfl⟩ := Option.map_eq_some_iff.mp h
      exact .inet hs (.inr hx) ht
  | inet6 hs =>
    dsimp only at h
    split_ifs at h with ha
    · obtain rfl := Option.some.inj h
      exact .inet6 hs (.inl ⟨ha, rfl⟩) ht
    · obtain ⟨x, hx, rfl⟩ := Option.map_eq_some_iff.mp h
      exact .inet6 hs (.inr hx) ht

/-- What is stored prints as a string that denotes it. -/
theorem Denotes.print (hf : inet.Faithful) (h : Denotes inet s addr) : Denotes inet (addrToString inet addr) addr := by
  cases h with
  | port ht =>
    exact .inet rfl (.inr (hf.print4 0 (.inl rfl))) (isPort_decimal ht.2.2.2.1 ht.2.2.2.2)
  | inet _ ha ht =>
    refine .inet rfl (.inr (hf.print4 _ ?_)) (isPort_decimal ht.2.2.2.1 ht.2.2.2.2)
    exact ha.imp And.right fun h => ⟨_, h⟩
  | inet6 _ ha ht =>
    refine .inet6 rfl (.inr (hf.print6 _ ?_)) (isPort_decimal ht.2.2.2.1 ht.2.2.2.2)
    exact ha.imp And.right fun h => ⟨_, h⟩

/-- A readable address and a positive number are stored. -/
theorem exists_storeAddr (ha : Readable inet family a) {n : Int} (hn : 0 < n) :
    ∃ addr, storeAddr inet family a n = some addr := by
  unfold storeAddr
  rw [if_neg (by omega), ← Option.isSome_iff_exists]
  cases family with
  | inet =>
    dsimp only
    split_ifs with hne
    · rfl
    · rw [Option.isSome_map]
      exact ha.resolve_left hne
  | inet6 =>
    dsimp only
    split_ifs with hne
    · rfl
    · rw [Option.isSome_map]
      exact ha.resolve_left hne

theorem readable_of_storeAddr {n : Int} (h : storeAddr inet family a n = some addr) :
    Readable inet family a ∧ 0 < n := by
  unfold storeAddr at h
  by_cases hn : n ≤ 0
  · rw [if_pos hn] at h
    cases h
  rw [if_neg hn] at h
  refine ⟨?_, Int.not_le.mp hn⟩
  by_cases hne : a = []
  · cases family with
    | inet => exact .inl hne
    | inet6 => exact .inl hne
  · cases family with
    | inet =>
      dsimp only at h
      rw [if_neg hne] at h
      obtain ⟨x, hx, -⟩ := Option.map_eq_some_iff.mp h
      exact .inr (Option.isSome_iff_exists.mpr ⟨x, hx⟩)
    | inet6 =>
      dsimp only at h
      rw [if_neg hne] at h
      obtain ⟨x, hx, -⟩ := Option.map_eq_some_iff.mp h
      exact .inr (Option.isSome_iff_exists.mpr ⟨x, hx⟩)

end Forms

/-- A string is read exactly as it is written when it is careful. -/
theorem readExactly_iff {inet : Inet} (hf : inet.Faithful) (s : Bytes) : ReadExactly inet s ↔ Careful inet s := by
  constructor
  · rintro ⟨hread, -⟩ family a t hparts ha ht
    obtain ⟨addr, hstore⟩ := exists_storeAddr ha ht
    have hdenotes := (hread addr).mp ((stringToAddr_of_parts hparts).trans hstore)
    obtain ⟨family', a', t', port, hparts', ht', ha', -⟩ := hdenotes.parts hf
    obtain ⟨rfl, rfl, rfl⟩ := hparts.unique hparts'
    exact ⟨⟨port, ht'⟩, ha'⟩
  · intro hcareful
    have hread : ∀ addr, stringToAddr inet s = some addr → Denotes inet s addr := by
      intro addr h
      obtain ⟨family, a, t, hparts⟩ := exists_parts h
      rw [stringToAddr_of_parts hparts] at h
      obtain ⟨ha, ht⟩ := readable_of_storeAddr h
      obtain ⟨⟨port, hport⟩, hzero⟩ := hcareful family a t hparts ha ht
      rw [Http.cString_of_notMem hzero, hport.atoi_eq] at h
      exact denotes_of_parts hparts hport h
    exact ⟨fun addr => ⟨hread addr, fun h => h.stringToAddr_eq hf⟩,
      fun addr h => ((hread addr h).print hf).stringToAddr_eq hf⟩

/-- "0.0.0.0" and "127.0.0.1" -/
def known4 : List (Bytes × BitVec 32) :=
  [([48, 46, 48, 46, 48, 46, 48], 0), ([49, 50, 55, 46, 48, 46, 48, 46, 49], 0x7f000001)]

/-- "::" and "::1" -/
def known6 : List (Bytes × BitVec 128) := [([58, 58], 0), ([58, 58, 49], 1)]

/-- The functions on these addresses. -/
def knownInet : Inet where
  pton4 t := known4.lookup t
  pton6 t := known6.lookup t
  ntop4 addr := ((known4.find? (·.2 = addr)).map Prod.fst).getD []
  ntop6 addr := ((known6.find? (·.2 = addr)).map Prod.fst).getD []

theorem knownInet_faithful : knownInet.Faithful where
  text4 t addr h := by
    have hknown : ∀ e ∈ known4, e.1 ≠ [] ∧ ∀ c ∈ e.1, c = 46 ∨ Http.isDigit c = true := by decide +kernel
    exact hknown _ (mem_of_lookup_eq_some h)
  text6 t addr h := by
    have hknown : ∀ e ∈ known6, e.1 ≠ [] ∧
        ∀ c ∈ e.1, c = 46 ∨ c = 58 ∨ Http.isDigit c = true ∨ (65 ≤ c ∧ c ≤ 70) ∨ (97 ≤ c ∧ c ≤ 102) := by
      decide +kernel
    exact hknown _ (mem_of_lookup_eq_some h)
  print4 addr h := by
    have hknown : ∀ e ∈ known4, knownInet.pton4 (knownInet.ntop4 e.2) = some e.2 := by decide +kernel
    obtain rfl | ⟨t, ht⟩ := h
    · exact hknown _ List.mem_cons_self
    · exact hknown _ (mem_of_lookup_eq_some ht)
  print6 addr h := by
    have hknown : ∀ e ∈ known6, knownInet.pton6 (knownInet.ntop6 e.2) = some e.2 := by decide +kernel
    obtain rfl | ⟨t, ht⟩ := h
    · exact hknown _ List.mem_cons_self
    · exact hknown _ (mem_of_lookup_eq_some ht)

/-- "127.0.0.1:8080" -/
def loopback4 : Bytes := [49, 50, 55, 46, 48, 46, 48, 46, 49, 58, 56, 48, 56, 48]

/-- "[::1]:443" -/
def loopback6 : Bytes := [91, 58, 58, 49, 93, 58, 52, 52, 51]

theorem readExactly_loopback :
    (ReadExactly knownInet loopback4 ∧ stringToAddr knownInet loopback4 = some (.inet 0x7f000001 8080)) ∧
      ReadExactly knownInet loopback6 ∧ stringToAddr knownInet loopback6 = some (.inet6 1 443) := by
  have hport4 : IsPort [56, 48, 56, 48] 8080 := ⟨by simp, by simp [Http.isDigit], rfl, by decide, by decide⟩
  have hport6 : IsPort [52, 52, 51] 443 := ⟨by simp, by simp [Http.isDigit], rfl, by decide, by decide⟩
  refine ⟨⟨(readExactly_iff knownInet_faithful loopback4).mpr ?_, by decide +kernel⟩,
    (readExactly_iff knownInet_faithful loopback6).mpr ?_, by decide +kernel⟩
  · intro family a t hparts _ _
    obtain ⟨rfl, rfl, rfl⟩ := hparts.unique
      (.inet (a := [49, 50, 55, 46, 48, 46, 48, 46, 49]) (t := [56, 48, 56, 48]) rfl (by decide) (by decide) (by decide))
    exact ⟨⟨8080, hport4⟩, by decide⟩
  · intro family a t hparts _ _
    obtain ⟨rfl, rfl, rfl⟩ := hparts.unique
      (.inet6 (a := [58, 58, 49]) (t := [52, 52, 51]) rfl (by decide) (by decide) (by decide))
    exact ⟨⟨443, hport6⟩, by decide⟩

/-- "70000" is read as the port 4464. -/
theorem not_readExactly_wide : ¬ ReadExactly knownInet [55, 48, 48, 48, 48] := by
  rintro ⟨hread, -⟩
  have hstore : stringToAddr knownInet [55, 48, 48, 48, 48] = some (.inet 0 4464) := by decide +kernel
  obtain ⟨_, _, _, port, hparts, ht, -⟩ := ((hread _).mp hstore).parts knownInet_faithful
  obtain ⟨rfl, rfl, rfl⟩ := hparts.unique (.port (by decide) (by decide) (by decide))
  have hvalue : Http.digitsValue [55, 48, 48, 48, 48] = 70000 := by decide
  obtain ⟨-, -, heq, -, hle⟩ := ht
  omega

end Latypus.Net
