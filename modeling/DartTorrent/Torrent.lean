import Mathlib.Data.List.Basic
import Mathlib.Data.Nat.Digits.Defs
import Mathlib.Tactic.Cases

/-!
# Torrent Data

The libtorrent values that the library passes around: hashes and their hex text, info
hashes, torrent handles, and the parameters that resume data is made of. libtorrent itself
is not modelled; what the code relies on is stated where it is used.

* `hexText` is the text that `operator<<` writes for a `sha1_hash`: forty lowercase hex
  digits. It is injective (`hexText_injective`), so a row keyed by the text belongs to one
  hash.
* `ResumeCodec` is the pair `bencode ∘ write_resume_data` and `read_resume_data`, with the
  round trip as a field. `netstringCodec` is one such pair.
-/

namespace DartTorrent

/-- A byte string. -/
abbrev Bytes := List UInt8

/-! ### Hashes -/

/-- `sha1_hash`: twenty bytes. -/
abbrev Sha1Hash := { bytes : Bytes // bytes.length = 20 }

/-- `sha256_hash`: thirty-two bytes. -/
abbrev Sha256Hash := { bytes : Bytes // bytes.length = 32 }

/-- The lowercase hex digit of a number below sixteen. -/
def hexDigit (n : ℕ) : UInt8 := if n < 10 then UInt8.ofNat (48 + n) else UInt8.ofNat (87 + n)

/-- The two hex digits of a byte. -/
def hexByte (b : UInt8) : Bytes := [hexDigit (b.toNat / 16), hexDigit (b.toNat % 16)]

/-- The text of a hash: two lowercase hex digits for each byte. -/
def hexText (h : Sha1Hash) : Bytes := h.val.flatMap hexByte

theorem hexDigit_inj : ∀ m < 16, ∀ n < 16, hexDigit m = hexDigit n → m = n := by decide

theorem hexDigit_range : ∀ n < 16,
    (48 ≤ hexDigit n ∧ hexDigit n ≤ 57) ∨ (97 ≤ hexDigit n ∧ hexDigit n ≤ 102) := by decide

theorem hexByte_injective : Function.Injective hexByte := by
  intro a b h
  have ha := a.toNat_lt
  have hb := b.toNat_lt
  simp only [hexByte, List.cons.injEq, and_true] at h
  have hhigh := hexDigit_inj _ (by omega) _ (by omega) h.1
  have hlow := hexDigit_inj _ (by omega) _ (by omega) h.2
  exact UInt8.toNat_inj.mp (by omega)

private theorem flatMap_hexByte_inj :
    ∀ {l₁ l₂ : Bytes}, l₁.flatMap hexByte = l₂.flatMap hexByte → l₁ = l₂
  | [], [], _ => rfl
  | [], _ :: _, h => by simp [hexByte] at h
  | _ :: _, [], h => by simp [hexByte] at h
  | a :: l₁, b :: l₂, h => by
      rw [List.flatMap_cons, List.flatMap_cons] at h
      obtain ⟨hab, hrest⟩ := List.append_inj h rfl
      rw [hexByte_injective hab, flatMap_hexByte_inj hrest]

/-- **Different hashes have different texts.** -/
theorem hexText_injective : Function.Injective hexText :=
  fun _ _ h => Subtype.ext (flatMap_hexByte_inj h)

@[simp] theorem length_hexText (h : Sha1Hash) : (hexText h).length = 40 := by
  have hlen : ∀ l : Bytes, (l.flatMap hexByte).length = 2 * l.length := by
    intro l
    induction l with
    | nil => rfl
    | cons b l ih =>
        rw [List.flatMap_cons, List.length_append, ih, List.length_cons]
        simp [hexByte]
        omega
  rw [hexText, hlen, h.property]

/-- Every byte of a hash text is one of `0`–`9` or `a`–`f`. -/
theorem mem_hexText {h : Sha1Hash} {b : UInt8} (hb : b ∈ hexText h) :
    (48 ≤ b ∧ b ≤ 57) ∨ (97 ≤ b ∧ b ≤ 102) := by
  obtain ⟨c, -, hc⟩ := List.mem_flatMap.mp hb
  have hlt := c.toNat_lt
  simp only [hexByte, List.mem_cons, List.not_mem_nil, or_false] at hc
  rcases hc with rfl | rfl
  · exact hexDigit_range _ (by omega)
  · exact hexDigit_range _ (by omega)

/-- A hash text has no NUL in it. -/
theorem nul_notMem_hexText (h : Sha1Hash) : (0 : UInt8) ∉ hexText h :=
  fun h0 => absurd (mem_hexText h0) (by decide)

/-- `info_hash_t`: the v1 hash, and the v2 hash of a v2 or hybrid torrent once it is
known. -/
structure InfoHashes where
  v1 : Sha1Hash
  v2 : Option Sha256Hash
deriving DecidableEq

/-- `info_hash_t::get_best`: the truncated v2 hash when there is one, else the v1 hash. -/
def InfoHashes.getBest (ih : InfoHashes) : Sha1Hash :=
  match ih.v2 with
  | some h => ⟨h.val.take 20, by rw [List.length_take, h.property]; rfl⟩
  | none => ih.v1

/-! ### Handles and parameters -/

/-- `torrent_handle`: it refers to one torrent, or to none when it is default-constructed.
Its `operator==` is libtorrent's and a parameter where the code uses it. -/
structure TorrentHandle where
  torrent : Option ℕ
deriving DecidableEq, Repr

/-- `torrent_status::state_t`, as far as `lt_torrent_state_str` tells them apart. -/
inductive TorrentState
  | checkingFiles
  | downloadingMetadata
  | downloading
  | finished
  | seeding
  | checkingResumeData
  | other
deriving DecidableEq, Repr

/-- `torrent_status`, as far as the library reads it; the progress by its bits. -/
structure TorrentStatus where
  name : Bytes
  savePath : Bytes
  state : TorrentState
  progress : UInt32
  totalWanted : ℤ
  downloadRate : ℤ
  isSeeding : Bool
deriving DecidableEq

/-- `lt_torrent_state_str`. -/
def ltTorrentStateStr : TorrentState → String
  | .checkingFiles => "Checking"
  | .downloadingMetadata => "Downloading metadata"
  | .downloading => "Downloading"
  | .finished => "Finished"
  | .seeding => "Seeding"
  | .checkingResumeData => "Checking resume"
  | .other => "<>"

/-- `add_torrent_params`, as far as the library reads it: the info hashes, the info
dictionary when the torrent has its metadata, name and save path. `other` stands for the
remaining fields, which only `write_resume_data` and `read_resume_data` look at. -/
structure AddTorrentParams where
  infoHashes : InfoHashes
  ti : Option Bytes := none
  name : Bytes := []
  savePath : Bytes := []
  other : Bytes := []
deriving DecidableEq

/-- `bencode ∘ write_resume_data` and `read_resume_data`. Resume data is a bencoded
dictionary, so it is never empty, and reading it gives back what was written. -/
structure ResumeCodec where
  writeResumeData : AddTorrentParams → Bytes
  readResumeData : Bytes → Except Bytes AddTorrentParams
  write_ne_nil : ∀ p, writeResumeData p ≠ []
  read_write : ∀ p, readResumeData (writeResumeData p) = .ok p

/-! ### A codec of length-prefixed strings

Each field is written as its length in decimal, a colon and its bytes, the fields in a
fixed order between `d` and `e`. -/

/-- The decimal digits of a number, most significant first. -/
def decimal (n : ℕ) : Bytes :=
  if n = 0 then [48] else (Nat.digits 10 n).reverse.map fun d => UInt8.ofNat (48 + d)

/-- The number that decimal digits denote. -/
def ofDecimal (ds : Bytes) : ℕ := Nat.ofDigits 10 (ds.reverse.map fun d => d.toNat - 48)

/-- A string with its length before it. -/
def netstring (s : Bytes) : Bytes := decimal s.length ++ 58 :: s

/-- Read one length-prefixed string: the string and what follows it. -/
def readNetstring (bs : Bytes) : Bytes × Bytes :=
  let ds := bs.takeWhile (· ≠ 58)
  let rest := (bs.dropWhile (· ≠ 58)).drop 1
  (rest.take (ofDecimal ds), rest.drop (ofDecimal ds))

theorem toNat_ofNat_digit {d : ℕ} (hd : d < 10) : (UInt8.ofNat (48 + d)).toNat = 48 + d := by
  rw [UInt8.toNat_ofNat']
  exact Nat.mod_eq_of_lt (by omega)

theorem ofDecimal_decimal (n : ℕ) : ofDecimal (decimal n) = n := by
  by_cases h0 : n = 0
  · subst h0
    decide
  · have hdigits : (decimal n).reverse.map (fun d => d.toNat - 48) = Nat.digits 10 n := by
      rw [decimal, if_neg h0, ← List.map_reverse, List.reverse_reverse, List.map_map]
      refine (List.map_congr_left fun d hd => ?_).trans (List.map_id _)
      have hlt : d < 10 := Nat.digits_lt_base (Nat.one_lt_succ_succ 8) hd
      simp only [Function.comp_apply, toNat_ofNat_digit hlt, id_eq]
      omega
    rw [ofDecimal, hdigits, Nat.ofDigits_digits]

theorem ne_colon_of_mem_decimal {n : ℕ} {b : UInt8} (hb : b ∈ decimal n) : b ≠ 58 := by
  rw [decimal] at hb
  split at hb
  · rw [List.mem_singleton.mp hb]
    decide
  · obtain ⟨d, hd, rfl⟩ := List.mem_map.mp hb
    have hlt : d < 10 := Nat.digits_lt_base (Nat.one_lt_succ_succ 8) (List.mem_reverse.mp hd)
    intro heq
    have hnat := congrArg UInt8.toNat heq
    rw [toNat_ofNat_digit hlt] at hnat
    have h58 : (58 : UInt8).toNat = 58 := rfl
    omega

/-- A length-prefixed string is read back, whatever follows it. -/
theorem readNetstring_netstring (s rest : Bytes) :
    readNetstring (netstring s ++ rest) = (s, rest) := by
  have hall : ∀ b ∈ decimal s.length, (fun b : UInt8 => decide (b ≠ 58)) b = true :=
    fun b hb => by simpa using ne_colon_of_mem_decimal hb
  have hshape : netstring s ++ rest = decimal s.length ++ 58 :: (s ++ rest) := by
    rw [netstring, List.append_assoc, List.cons_append]
  have htake : (netstring s ++ rest).takeWhile (fun b => decide (b ≠ 58)) = decimal s.length := by
    rw [hshape, List.takeWhile_append_of_pos hall]
    simp
  have hdrop : (netstring s ++ rest).dropWhile (fun b => decide (b ≠ 58)) =
      58 :: (s ++ rest) := by
    rw [hshape, List.dropWhile_append_of_pos hall]
    simp
  unfold readNetstring
  dsimp only
  rw [htake, hdrop, ofDecimal_decimal]
  simp

/-- The fields of the parameters as byte strings. -/
def paramFields (p : AddTorrentParams) : List Bytes :=
  [p.infoHashes.v1.val,
   match p.infoHashes.v2 with
   | some h => h.val
   | none => [],
   match p.ti with
   | some info => 1 :: info
   | none => [],
   p.name, p.savePath, p.other]

/-- The parameters that six byte strings denote. -/
def ofParamFields (v1 v2 ti name savePath other : Bytes) : Except Bytes AddTorrentParams :=
  if h1 : v1.length = 20 then
    .ok { infoHashes := { v1 := ⟨v1, h1⟩
                          v2 := if h2 : v2.length = 32 then some ⟨v2, h2⟩ else none }
          ti := match ti with
            | [] => none
            | _ :: info => some info
          name := name
          savePath := savePath
          other := other }
  else .error []

/-- Write the fields one after the other between `d` and `e`. -/
def writeNetstrings (p : AddTorrentParams) : Bytes :=
  100 :: (paramFields p).foldr (fun s rest => netstring s ++ rest) [101]

/-- Read the six fields back. -/
def readNetstrings (bs : Bytes) : Except Bytes AddTorrentParams :=
  let v1 := readNetstring (bs.drop 1)
  let v2 := readNetstring v1.2
  let ti := readNetstring v2.2
  let name := readNetstring ti.2
  let savePath := readNetstring name.2
  let other := readNetstring savePath.2
  ofParamFields v1.1 v2.1 ti.1 name.1 savePath.1 other.1

theorem readNetstrings_writeNetstrings (p : AddTorrentParams) :
    readNetstrings (writeNetstrings p) = .ok p := by
  obtain ⟨⟨⟨v1, hv1⟩, v2⟩, ti, name, savePath, other⟩ := p
  simp only [readNetstrings, writeNetstrings, paramFields, List.foldr_cons, List.foldr_nil,
    List.drop_succ_cons, List.drop_zero, readNetstring_netstring]
  rcases v2 with - | ⟨v2, hv2⟩ <;> rcases ti with - | info <;> simp [ofParamFields, *]

/-- The resume data of a magnet torrent with `n` bytes of metadata: the bytes stand after
those of the hashes, the length and a marker. -/
theorem writeNetstrings_info (v1 : Sha1Hash) (n : ℕ) (b : UInt8) :
    ∃ pre post, writeNetstrings { infoHashes := ⟨v1, none⟩, ti := some (List.replicate n b) } =
        pre ++ (List.replicate n b ++ post) ∧
      pre.length = 28 + (decimal (n + 1)).length ∧ post.length = 7 := by
  refine ⟨100 :: (netstring v1.val ++ (netstring [] ++ (decimal (n + 1) ++ [58, 1]))),
    netstring [] ++ (netstring [] ++ (netstring [] ++ [101])), ?_, ?_, by decide⟩
  · simp [writeNetstrings, paramFields, netstring]
  · have h20 : (decimal 20).length = 2 := by decide
    have h0 : (netstring []).length = 2 := by decide
    rw [List.length_cons, List.length_append, List.length_append, List.length_append, h0,
      netstring, v1.property, List.length_append, h20, List.length_cons, v1.property]
    simp only [List.length_cons, List.length_nil]
    omega

/-- A resume data codec: the fields as length-prefixed strings. -/
def netstringCodec : ResumeCodec where
  writeResumeData := writeNetstrings
  readResumeData := readNetstrings
  write_ne_nil _ := List.cons_ne_nil _ _
  read_write := readNetstrings_writeNetstrings

end DartTorrent
