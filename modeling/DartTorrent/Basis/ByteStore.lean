import Mathlib.Data.List.OfFn
import Mathlib.Data.List.Nodup
import Mathlib.Order.Basic

/-!
# A Flat Store of Cells

`Mem β` is a flat memory with one cell of type `β` at every address. A `Span` is a run of
consecutive addresses. This module has the reads and writes of whole spans and the frame
rules that relate them: a write is read back on its own span, and a read of a span that no
write overlaps is unchanged. It also has the terminated strings kept in such a memory.

## Main results

* `readBytes_writeBytes` / `readBytes_writeBytes_of_disjoint`: read-back and frame of a
  write.
* `readBytes_copyBytes`: a copy between disjoint spans.
* `AgreesOff.readBytes_eq`: the frame rule for any change confined to a list of spans.
* `Holds.after_write_iff`: what a write over a stored string leaves of it.
* `holds_of_readBytes` / `cString_of_holds`: a stored terminated string is held, and
  scanning for the terminator returns it.
-/

namespace ByteStore

variable {β : Type*}

/-- A flat memory: one cell at every address. -/
abbrev Mem (β : Type*) := ℕ → β

/-- A run of `len` consecutive addresses from `start`. -/
structure Span where
  start : ℕ
  len : ℕ
deriving DecidableEq, Repr

/-- The first address after the span. -/
def Span.stop (s : Span) : ℕ := s.start + s.len

/-- Two spans have an address in common. -/
def Span.Overlaps (s t : Span) : Prop := max s.start t.start < min s.stop t.stop

instance (s t : Span) : Decidable (s.Overlaps t) :=
  inferInstanceAs (Decidable (max s.start t.start < min s.stop t.stop))

/-- The span lies between the addresses `lo` and `hi`. -/
def Span.Within (s : Span) (lo hi : ℕ) : Prop := lo ≤ s.start ∧ s.stop ≤ hi

instance (s : Span) (lo hi : ℕ) : Decidable (s.Within lo hi) :=
  inferInstanceAs (Decidable (lo ≤ s.start ∧ s.stop ≤ hi))

theorem Span.overlaps_iff {s t : Span} :
    s.Overlaps t ↔ ∃ a, (s.start ≤ a ∧ a < s.stop) ∧ (t.start ≤ a ∧ a < t.stop) := by
  rw [Span.Overlaps]
  constructor
  · intro h
    exact ⟨max s.start t.start, by omega⟩
  · rintro ⟨a, hs, ht⟩
    omega

theorem Span.Overlaps.symm {s t : Span} (h : s.Overlaps t) : t.Overlaps s := by
  unfold Span.Overlaps at *
  omega

/-- A span that ends where the other starts, or before, does not overlap it. -/
theorem Span.not_overlaps_of_stop_le {s t : Span} (h : s.stop ≤ t.start) :
    ¬ s.Overlaps t := by
  rw [Span.Overlaps]
  omega

/-- A span that starts where the other ends, or after, does not overlap it. -/
theorem Span.not_overlaps_of_le_start {s t : Span} (h : t.stop ≤ s.start) :
    ¬ s.Overlaps t :=
  fun ho => not_overlaps_of_stop_le h ho.symm

/-- What overlaps a span overlaps a longer one at its place. -/
theorem Span.Overlaps.of_le {s : Span} {p n k : ℕ} (h : s.Overlaps ⟨p, n⟩) (hle : n ≤ k) :
    s.Overlaps ⟨p, k⟩ := by
  simp only [Span.Overlaps, Span.stop] at *
  omega

/-- Nothing overlaps an empty span. -/
theorem Span.not_overlaps_of_empty {s t : Span} (h : t.len = 0) : ¬ s.Overlaps t := by
  simp only [Span.Overlaps, Span.stop]
  omega

/-- Store the cells `bs` at consecutive addresses from `p`. -/
def writeBytes (m : Mem β) (p : ℕ) (bs : List β) : Mem β :=
  fun a => if p ≤ a then (bs[a - p]?).getD (m a) else m a

/-- The `n` cells from address `p`. -/
def readBytes (m : Mem β) (p n : ℕ) : List β :=
  (List.range n).map fun i => m (p + i)

@[simp] theorem length_readBytes (m : Mem β) (p n : ℕ) : (readBytes m p n).length = n := by
  simp [readBytes]

@[simp] theorem readBytes_zero (m : Mem β) (p : ℕ) : readBytes m p 0 = [] := rfl

@[simp] theorem writeBytes_nil (m : Mem β) (p : ℕ) : writeBytes m p [] = m := by
  funext a
  simp [writeBytes]

/-- An address outside the written span keeps its cell. -/
theorem writeBytes_of_not_mem {m : Mem β} {p : ℕ} {bs : List β} {a : ℕ}
    (h : a < p ∨ p + bs.length ≤ a) : writeBytes m p bs a = m a := by
  rw [writeBytes]
  by_cases hp : p ≤ a
  · have hlen : bs.length ≤ a - p := by omega
    rw [if_pos hp, List.getElem?_eq_none hlen, Option.getD_none]
  · rw [if_neg hp]

/-- An address inside the written span holds the cell written there. -/
theorem writeBytes_of_lt {m : Mem β} {p : ℕ} {bs : List β} {i : ℕ} (h : i < bs.length) :
    writeBytes m p bs (p + i) = bs[i] := by
  simp [writeBytes, h]

/-- What a span reads is determined cell by cell. -/
theorem readBytes_eq_iff {m : Mem β} {p : ℕ} {bs : List β} {n : ℕ} :
    readBytes m p n = bs ↔ bs.length = n ∧ ∀ i, i < n → bs[i]? = some (m (p + i)) := by
  constructor
  · rintro rfl
    refine ⟨length_readBytes m p n, fun i hi => ?_⟩
    simp [readBytes, hi]
  · rintro ⟨hlen, hcells⟩
    refine List.ext_getElem? fun i => ?_
    by_cases hi : i < n
    · rw [hcells i hi]
      simp [readBytes, hi]
    · rw [List.getElem?_eq_none (by simp; omega), List.getElem?_eq_none (by omega)]

/-- Two memories that agree on a span read the same there. -/
theorem readBytes_congr {m m' : Mem β} {p n : ℕ} (h : ∀ i, i < n → m (p + i) = m' (p + i)) :
    readBytes m p n = readBytes m' p n := by
  refine List.map_congr_left fun i hi => h i (List.mem_range.mp hi)

theorem readBytes_succ (m : Mem β) (p n : ℕ) :
    readBytes m p (n + 1) = readBytes m p n ++ [m (p + n)] := by
  simp [readBytes, List.range_succ]

theorem readBytes_add (m : Mem β) (p n k : ℕ) :
    readBytes m p (n + k) = readBytes m p n ++ readBytes m (p + n) k := by
  induction k with
  | zero => simp
  | succ k ih =>
      rw [← Nat.add_assoc, readBytes_succ, ih, readBytes_succ, List.append_assoc,
        Nat.add_assoc]

/-- **Read-back**: a written span reads what was written. -/
theorem readBytes_writeBytes (m : Mem β) (p : ℕ) (bs : List β) :
    readBytes (writeBytes m p bs) p bs.length = bs := by
  rw [readBytes_eq_iff]
  refine ⟨rfl, fun i hi => ?_⟩
  rw [writeBytes_of_lt hi, List.getElem?_eq_getElem hi]

/-- **Frame**: a span that the write does not overlap reads as before. -/
theorem readBytes_writeBytes_of_disjoint {m : Mem β} {p : ℕ} {bs : List β} {q n : ℕ}
    (h : ¬ (Span.mk p bs.length).Overlaps ⟨q, n⟩) :
    readBytes (writeBytes m p bs) q n = readBytes m q n := by
  refine readBytes_congr fun i hi => writeBytes_of_not_mem ?_
  simp only [Span.Overlaps, Span.stop] at h
  omega

/-- A write right behind a text appends to it. -/
theorem readBytes_writeBytes_append (m : Mem β) (p n : ℕ) (bs : List β) :
    readBytes (writeBytes m (p + n) bs) p (n + bs.length) = readBytes m p n ++ bs := by
  have hkept : ¬ (Span.mk (p + n) bs.length).Overlaps ⟨p, n⟩ :=
    Span.not_overlaps_of_le_start le_rfl
  rw [readBytes_add, readBytes_writeBytes, readBytes_writeBytes_of_disjoint hkept]

/-- Copy `n` cells from `src` to `dst`, one after the other from the first. -/
def copyBytes (m : Mem β) (dst src : ℕ) : ℕ → Mem β
  | 0 => m
  | n + 1 =>
      let m' := copyBytes m dst src n
      writeBytes m' (dst + n) [m' (src + n)]

@[simp] theorem copyBytes_zero (m : Mem β) (dst src : ℕ) : copyBytes m dst src 0 = m := rfl

/-- A copy stores only to its destination. -/
theorem copyBytes_of_not_mem {m : Mem β} {dst src n a : ℕ} (h : a < dst ∨ dst + n ≤ a) :
    copyBytes m dst src n a = m a := by
  induction n with
  | zero => rfl
  | succ n ih =>
      rw [copyBytes, writeBytes_of_not_mem (by simp only [List.length_singleton]; omega)]
      exact ih (by omega)

/-- **A copy between disjoint spans** leaves the source's cells in the destination. -/
theorem readBytes_copyBytes {m : Mem β} {dst src n : ℕ}
    (h : ¬ (Span.mk src n).Overlaps ⟨dst, n⟩) :
    readBytes (copyBytes m dst src n) dst n = readBytes m src n := by
  induction n with
  | zero => rfl
  | succ n ih =>
      have hsmall : ¬ (Span.mk src n).Overlaps ⟨dst, n⟩ := by
        simp only [Span.Overlaps, Span.stop] at h ⊢
        omega
      have hsrc : copyBytes m dst src n (src + n) = m (src + n) := by
        refine copyBytes_of_not_mem ?_
        simp only [Span.Overlaps, Span.stop] at h
        omega
      have hstored : readBytes (writeBytes (copyBytes m dst src n) (dst + n) [m (src + n)])
          dst (n + 1) = readBytes (copyBytes m dst src n) dst n ++ [m (src + n)] :=
        readBytes_writeBytes_append _ _ _ [m (src + n)]
      rw [copyBytes, hsrc, hstored, ih hsmall, readBytes_succ]

/-! ### Frames -/

/-- The memory `m'` agrees with `m` at every address outside the spans `bs`. -/
def AgreesOff (bs : List Span) (m m' : Mem β) : Prop :=
  ∀ a, (∀ b ∈ bs, ¬ (b.start ≤ a ∧ a < b.stop)) → m' a = m a

theorem AgreesOff.refl (bs : List Span) (m : Mem β) : AgreesOff bs m m := fun _ _ => rfl

theorem AgreesOff.mono {bs bs' : List Span} {m m' : Mem β} (h : AgreesOff bs m m')
    (hsub : bs ⊆ bs') : AgreesOff bs' m m' :=
  fun a ha => h a fun b hb => ha b (hsub hb)

theorem AgreesOff.trans {bs bs' : List Span} {m m' m'' : Mem β} (h : AgreesOff bs m m')
    (h' : AgreesOff bs' m' m'') : AgreesOff (bs ++ bs') m m'' := by
  intro a ha
  rw [h' a fun b hb => ha b (List.mem_append_right _ hb)]
  exact h a fun b hb => ha b (List.mem_append_left _ hb)

/-- Two changes inside one span are a change inside it. -/
theorem AgreesOff.trans_same {bs : List Span} {m m' m'' : Mem β} (h : AgreesOff bs m m')
    (h' : AgreesOff bs m' m'') : AgreesOff bs m m'' :=
  fun a ha => (h' a ha).trans (h a ha)

/-- A change confined to spans is confined to any spans that they lie in. -/
theorem AgreesOff.of_within {bs bs' : List Span} {m m' : Mem β} (h : AgreesOff bs m m')
    (hbs : ∀ b ∈ bs, ∃ b' ∈ bs', b.Within b'.start b'.stop) : AgreesOff bs' m m' := by
  refine fun a ha => h a fun b hb hmem => ?_
  obtain ⟨b', hb', hstart, hstop⟩ := hbs b hb
  exact ha b' hb' ⟨hstart.trans hmem.1, hmem.2.trans_le hstop⟩

/-- **The frame rule**: a span that overlaps none of the changed ones reads as before. -/
theorem AgreesOff.readBytes_eq {bs : List Span} {m m' : Mem β} (h : AgreesOff bs m m')
    {q n : ℕ} (hbs : ∀ b ∈ bs, ¬ b.Overlaps ⟨q, n⟩) : readBytes m' q n = readBytes m q n := by
  refine readBytes_congr fun i hi => h _ fun b hb hmem => hbs b hb ?_
  refine Span.overlaps_iff.mpr ⟨q + i, hmem, ?_⟩
  simp only [Span.stop]
  omega

/-- A write changes its block only, when it stays inside it. -/
theorem agreesOff_writeBytes {m : Mem β} {b : Span} {p : ℕ} {bs : List β}
    (hlo : b.start ≤ p) (hhi : p + bs.length ≤ b.stop) : AgreesOff [b] m (writeBytes m p bs) := by
  intro a ha
  have hout := ha b List.mem_cons_self
  exact writeBytes_of_not_mem (by omega)

/-- A copy changes its block only, when its destination stays inside it. -/
theorem agreesOff_copyBytes {m : Mem β} {b : Span} {dst src n : ℕ}
    (hlo : b.start ≤ dst) (hhi : dst + n ≤ b.stop) :
    AgreesOff [b] m (copyBytes m dst src n) := by
  intro a ha
  have hout := ha b List.mem_cons_self
  exact copyBytes_of_not_mem (by omega)

/-- Store the pieces of a list, each at its offset from `p`. -/
def writePieces (m : Mem β) (p : ℕ) (ws : List (ℕ × List β)) : Mem β :=
  ws.foldl (fun m w => writeBytes m (p + w.1) w.2) m

/-- Pieces that fit a block change that block only. -/
theorem agreesOff_writePieces {m : Mem β} {b : Span} {ws : List (ℕ × List β)}
    (hws : ∀ w ∈ ws, w.1 + w.2.length ≤ b.len) :
    AgreesOff [b] m (writePieces m b.start ws) := by
  induction ws generalizing m with
  | nil => exact AgreesOff.refl _ _
  | cons w ws ih =>
      have hw := hws w List.mem_cons_self
      have hhead : AgreesOff [b] m (writeBytes m (b.start + w.1) w.2) :=
        agreesOff_writeBytes (Nat.le_add_right _ _) (by simp only [Span.stop]; omega)
      exact hhead.trans_same (ih fun w' hw' => hws w' (List.mem_cons_of_mem _ hw'))

/-! ### Terminated strings -/

section Terminated

variable {nul : β}

/-- The memory holds `s` and its terminator `nul` at `p`. -/
def Holds (nul : β) (m : Mem β) (p : ℕ) (s : List β) : Prop :=
  readBytes m p (s.length + 1) = s ++ [nul]

instance [DecidableEq β] (m : Mem β) (p : ℕ) (s : List β) : Decidable (Holds nul m p s) :=
  inferInstanceAs (Decidable (readBytes m p (s.length + 1) = s ++ [nul]))

/-- The span that `s` and its terminator take at `p`. -/
def stringSpan (p : ℕ) (s : List β) : Span := ⟨p, s.length + 1⟩

/-- A held string survives changes to spans that do not overlap it. -/
theorem Holds.of_agreesOff {bs : List Span} {m m' : Mem β} {p : ℕ} {s : List β}
    (h : Holds nul m p s) (hm : AgreesOff bs m m')
    (hbs : ∀ b ∈ bs, ¬ b.Overlaps (stringSpan p s)) : Holds nul m' p s :=
  (hm.readBytes_eq hbs).trans h

/-- Of blocks that are disjoint, a string in one survives what is written to those after it. -/
theorem Holds.of_pairwise {pre post : List Span} {b : Span} {m m' : Mem β} {s : List β}
    (hdisjoint : (pre ++ b :: post).Pairwise fun b b' => ¬ b.Overlaps b')
    (h : Holds nul m b.start s) (hlen : s.length + 1 ≤ b.len) (hm : AgreesOff post m m') :
    Holds nul m' b.start s := by
  have hlater := (List.pairwise_cons.mp (List.pairwise_append.mp hdisjoint).2.1).1
  refine h.of_agreesOff hm fun b' hb' hover => hlater b' hb' ?_
  exact (hover.of_le hlen).symm

/-- The cells of a held string. -/
theorem Holds.getElem? {m : Mem β} {p : ℕ} {s : List β} (h : Holds nul m p s) {i : ℕ}
    (hi : i ≤ s.length) : (s ++ [nul])[i]? = some (m (p + i)) :=
  (readBytes_eq_iff.mp h).2 i (Nat.lt_succ_of_le hi)

/-- The strings `s` at `p` and `s'` at `p'`, with their terminators, have the same cells where
they overlap. -/
def Agree (nul : β) (p : ℕ) (s : List β) (p' : ℕ) (s' : List β) : Prop :=
  ∀ i ≤ s.length, ∀ j ≤ s'.length, p + i = p' + j → (s ++ [nul])[i]? = (s' ++ [nul])[j]?

theorem Agree.symm {p p' : ℕ} {s s' : List β} (h : Agree nul p s p' s') : Agree nul p' s' p s :=
  fun j hj i hi heq => (h i hi j hj heq.symm).symm

/-- Two strings that are held at once agree. -/
theorem Holds.agree {m : Mem β} {p p' : ℕ} {s s' : List β} (h : Holds nul m p s)
    (h' : Holds nul m p' s') : Agree nul p s p' s' := by
  intro i hi j hj heq
  rw [h.getElem? hi, h'.getElem? hj, heq]

/-- **A string written over another** leaves it held exactly when the two agree. -/
theorem Holds.after_write_iff {m m' : Mem β} {p p' : ℕ} {s s' : List β} (h : Holds nul m p s)
    (h' : Holds nul m' p' s') (hm : AgreesOff [stringSpan p' s'] m m') :
    Holds nul m' p s ↔ Agree nul p s p' s' := by
  refine ⟨fun hkept => hkept.agree h', fun hagree => ?_⟩
  refine readBytes_eq_iff.mpr ⟨by simp, fun i hi => ?_⟩
  have hi := Nat.le_of_lt_succ hi
  by_cases hin : p' ≤ p + i ∧ p + i < (stringSpan p' s').stop
  · obtain ⟨j, hj⟩ := Nat.exists_eq_add_of_le hin.1
    have hjlen : j ≤ s'.length := by
      have hstop : (stringSpan p' s').stop = p' + (s'.length + 1) := rfl
      omega
    rw [hagree i hi j hjlen hj, h'.getElem? hjlen, hj]
  · have hsame : m' (p + i) = m (p + i) := hm _ fun b hb => by
      rw [List.mem_singleton.mp hb]
      exact hin
    rw [h.getElem? hi, hsame]

/-- A span that reads `s` holds it once the terminator is stored after it. -/
theorem holds_of_readBytes {m : Mem β} {p : ℕ} {s : List β} (h : readBytes m p s.length = s) :
    Holds nul (writeBytes m (p + s.length) [nul]) p s := by
  have happend : readBytes (writeBytes m (p + s.length) [nul]) p (s.length + 1) =
      readBytes m p s.length ++ [nul] := readBytes_writeBytes_append _ _ _ [nul]
  rw [Holds, happend, h]

/-- The cells from `p` up to the first terminator, in at most `fuel` cells. -/
def cString [DecidableEq β] (nul : β) (m : Mem β) (p : ℕ) : ℕ → List β
  | 0 => []
  | fuel + 1 => if m p = nul then [] else m p :: cString nul m (p + 1) fuel

/-- Scanning for the terminator returns the terminated string that the memory holds, if
the string itself has no terminator in it. -/
theorem cString_of_holds [DecidableEq β] {m : Mem β} {p : ℕ} {s : List β} {fuel : ℕ}
    (h : Holds nul m p s) (hs : nul ∉ s) (hfuel : s.length < fuel) :
    cString nul m p fuel = s := by
  induction s generalizing p fuel with
  | nil =>
      obtain ⟨fuel, rfl⟩ : ∃ k, fuel = k + 1 := ⟨fuel - 1, by omega⟩
      have h0 : m p = nul := by simpa [Holds, readBytes_succ] using h
      rw [cString, if_pos h0]
  | cons b s ih =>
      obtain ⟨fuel, rfl⟩ : ∃ k, fuel = k + 1 := ⟨fuel - 1, by omega⟩
      have hsplit : readBytes m p 1 ++ readBytes m (p + 1) (s.length + 1) =
          [b] ++ (s ++ [nul]) := by
        rw [← readBytes_add, Nat.add_comm 1]
        exact h
      obtain ⟨hb, hrest⟩ := List.append_inj hsplit (by simp)
      have hp : m p = b := by simpa [readBytes_succ] using hb
      have hne : b ≠ nul := fun hb0 => hs (hb0 ▸ List.mem_cons_self)
      rw [cString, hp, if_neg hne,
        ih hrest (fun h0 => hs (List.mem_cons_of_mem _ h0)) (by simp at hfuel; omega)]

/-- A cell that is not the terminator heads the scanned string. -/
theorem cString_of_ne [DecidableEq β] {m : Mem β} {p fuel : ℕ} (h : m p ≠ nul) :
    cString nul m p (fuel + 1) = m p :: cString nul m (p + 1) fuel := by
  rw [cString, if_neg h]

end Terminated

end ByteStore
