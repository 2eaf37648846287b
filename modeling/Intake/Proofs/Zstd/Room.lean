import Intake.Zstd.Sequences
import Intake.Outcome
import Mathlib.Tactic.Common

/-!
# Room for the content of a block

How much room there is and how far back a copy may reach decide whether a compressed block is
refused, and what may have been written over decides what it stands for. A block that is decoded
where nothing has been written over is decoded alike within wider limits, by a decoder that still
has all that the block may reach (`runCompressed_mono`).
-/

set_option autoImplicit false
set_option relaxedAutoImplicit false

namespace Intake.Zstd

/-! ### Room -/

/-- What keeps to the first limits keeps to the second ones. -/
structure Limits.Within (limits wider : Limits) : Prop where
  block : limits.block = wider.block
  room : limits.room ≤ wider.room
  beside : ∀ n, limits.roomBeside n ≤ wider.roomBeside n

theorem Limits.roomBeside_le (limits : Limits) (n : Nat) : limits.roomBeside n ≤ limits.room := by
  rw [roomBeside]
  split
  · omega
  · exact Nat.le_refl _

theorem Limits.roomBeside_pieces (block room n : Nat) : roomBeside ⟨block, room, false⟩ n = room :=
  by simp [roomBeside]

/-- In pieces there is as much room as there is. -/
theorem Limits.within_pieces {block room wider : Nat} {onePass : Bool} (hroom : room ≤ wider) :
    Within ⟨block, room, onePass⟩ ⟨block, wider, false⟩ where
  block := rfl
  room := hroom
  beside n := by
    rw [roomBeside_pieces]
    exact Nat.le_trans (roomBeside_le _ n) hroom

/-- Literals that are set aside leave as much room as a block may have. -/
theorem Limits.within_block {block room wider : Nat} (onePass : Bool) (hroom : room ≤ wider)
    (hblock : room ≤ block) : Within ⟨block, room, false⟩ ⟨block, wider, onePass⟩ where
  block := rfl
  room := hroom
  beside n := by
    rw [roomBeside_pieces, roomBeside]
    split
    · exact Nat.le_trans hblock (Nat.le_add_right _ _)
    · exact hroom

/-! ### Copies -/

theorem size_appendBytes (output : Array UInt8) (s : Bytes) :
    (output ++ s).size = output.size + s.length := by
  rw [← Array.length_toList, Array.toList_appendList, List.length_append, Array.length_toList]

/-- All that has been put from `earliest` on can still be copied, where the decoder may have written
up to `written`. -/
structure History.Keeps (history : History) (earliest written : Nat) : Prop where
  reach : history.earliest ≤ earliest
  fresh : history.turn ≤ earliest ∨ written + history.earliest ≤ earliest + history.turn

theorem History.keeps_initial (earliest written : Nat) :
    History.initial.Keeps earliest written :=
  ⟨Nat.zero_le _, .inl (Nat.zero_le _)⟩

namespace Writing

variable {w after : Writing} {history : History} {earliest room wider : Nat} {sequence : Sequence}

/-- The block as a decoder with another history would write it. -/
def within (w : Writing) (history : History) : Writing :=
  { w with history }

theorem literals?_within (w : Writing) (history : History) (n : Nat) :
    (w.within history).literals? n = (w.literals? n).map (·.within history) := by
  induction n generalizing w with
  | zero => rfl
  | succ n ih =>
    unfold literals?
    obtain ⟨output, start, written, before, literals⟩ := w
    cases literals with
    | nil => rfl
    | cons b literals => exact ih ⟨output.push b, start, written, before, literals⟩

/-- Taking literals leaves what the decoder has done before. -/
theorem of_literals? {n : Nat} (h : w.literals? n = some after) :
    after.written = w.written ∧ after.history = w.history ∧
      after.output.size = w.output.size + n := by
  induction n generalizing w with
  | zero =>
    obtain rfl := Option.some.inj h
    exact ⟨rfl, rfl, rfl⟩
  | succ n ih =>
    obtain ⟨output, start, written, history, literals⟩ := w
    cases literals with
    | nil => simp [literals?] at h
    | cons b literals =>
      obtain ⟨hwritten, hhistory, hsize⟩ :=
        ih (w := ⟨output.push b, start, written, history, literals⟩) h
      refine ⟨hwritten, hhistory, ?_⟩
      rw [hsize]
      dsimp only
      rw [Array.size_push, Nat.add_assoc, Nat.add_comm 1]

theorem finish_eq_ok_iff {output : Array UInt8} :
    w.finish room = .ok output ↔
      w.output.size - w.start + w.literals.length ≤ room ∧ output = w.output ++ w.literals := by
  rw [finish]
  split
  · simp; omega
  · simp only [Except.ok.injEq]
    constructor
    · rintro rfl
      exact ⟨by omega, rfl⟩
    · rintro ⟨-, rfl⟩
      rfl

variable [Release]

theorem size_copied (w : Writing) (distance length : Nat) :
    (w.copied distance length).size = w.output.size + length := by
  have hlength : w.overwritten (w.output.size - distance) length ≤ length := by
    rw [overwritten]
    omega
  rw [copied, size_copyBack, size_appendBytes, List.length_map, List.length_range']
  omega

/-- A copy of what has not been written over. -/
theorem copied_of_keeps (hkeeps : w.history.Keeps earliest w.written) {distance : Nat}
    (hzero : distance ≠ 0) (hreach : distance ≤ w.output.size - earliest) (length : Nat) :
    w.copied distance length = copyBack distance length w.output := by
  have hnone : w.overwritten (w.output.size - distance) length = 0 := by
    have := hkeeps.reach
    have := hkeeps.fresh
    rw [overwritten]
    omega
  rw [copied, hnone, Nat.sub_zero, List.range'_zero, List.map_nil, Array.appendList_nil]

theorem run_eq_ok_iff :
    w.run room sequence = .ok after ↔
      w.output.size - w.start + (sequence.literals + sequence.length) ≤ room ∧
        ∃ behind, w.literals? sequence.literals = some behind ∧
          sequence.distance ≠ 0 ∧
          sequence.distance ≤ behind.output.size - behind.history.earliest ∧
          after = { behind with output := behind.copied sequence.distance sequence.length } := by
  unfold run
  constructor
  · intro h
    split at h
    · simp at h
    · rename_i hroom
      split at h
      · simp at h
      · rename_i behind hliterals
        split at h
        · simp at h
        · rename_i hdistance
          obtain rfl := Except.ok.inj h
          obtain ⟨hzero, hreach⟩ := not_or.mp hdistance
          exact ⟨Nat.not_lt.mp hroom, behind, hliterals, hzero, Nat.not_lt.mp hreach, rfl⟩
  · rintro ⟨hroom, behind, hliterals, hzero, hreach, rfl⟩
    simp only [if_neg (Nat.not_lt.mpr hroom), hliterals]
    rw [if_neg (not_or.mpr ⟨hzero, Nat.not_lt.mpr hreach⟩)]

theorem of_run (h : w.run room sequence = .ok after) :
    after.written = w.written ∧ after.history = w.history ∧
      w.output.size ≤ after.output.size := by
  obtain ⟨-, behind, hliterals, -, -, rfl⟩ := run_eq_ok_iff.mp h
  obtain ⟨hwritten, hhistory, hsize⟩ := of_literals? hliterals
  refine ⟨hwritten, hhistory, ?_⟩
  dsimp only
  rw [size_copied]
  omega

/-- A sequence is carried out alike by a decoder that keeps all that it may copy. -/
theorem run_mono (h : w.run room sequence = .ok after) (hfirst : w.history = ⟨0, earliest⟩)
    (hroom : room ≤ wider) (hkeeps : history.Keeps earliest w.written) :
    (w.within history).run wider sequence = .ok (after.within history) := by
  obtain ⟨hfits, behind, hliterals, hzero, hreach, rfl⟩ := run_eq_ok_iff.mp h
  obtain ⟨hwritten, hhistory, -⟩ := of_literals? hliterals
  have hsame : behind.history = ⟨0, earliest⟩ := hhistory.trans hfirst
  rw [hsame] at hreach
  dsimp only at hreach
  -- Both decoders copy what has been put: the first one has never returned.
  have hcopied : behind.copied sequence.distance sequence.length =
      (behind.within history).copied sequence.distance sequence.length := by
    have hinitial : behind.history.Keeps earliest behind.written := by
      rw [hsame]
      exact ⟨Nat.le_refl _, .inl (Nat.zero_le _)⟩
    have hbehind : (behind.within history).history.Keeps earliest behind.written := by
      rw [hwritten]
      exact hkeeps
    rw [copied_of_keeps hinitial hzero hreach]
    exact (copied_of_keeps hbehind hzero hreach _).symm
  refine run_eq_ok_iff.mpr ⟨Nat.le_trans hfits hroom, behind.within history, ?_, hzero, ?_, ?_⟩
  · rw [literals?_within, hliterals]
    rfl
  · have := hkeeps.reach
    simp only [within]
    omega
  · rw [hcopied]
    rfl

end Writing

/-! ### Literals -/

section Literals

variable {limits wider : Limits} {code : Option LiteralCode} {s : Bytes} {literals : Literals}

/-- Literals are read alike within wider limits, and leave no less room. -/
def IsReadWider (literals : Literals) (read : Except Fault Literals) : Prop :=
  ∃ more, literals.room ≤ more ∧ read = .ok { literals with room := more }

theorem repeatedLiterals_mono (h : repeatedLiterals limits code s = .ok literals)
    (hwithin : limits.Within wider) : IsReadWider literals (repeatedLiterals wider code s) := by
  have hroom := hwithin.room
  unfold repeatedLiterals at h ⊢
  generalize plainSize s = sizes at h ⊢
  obtain ⟨n, header⟩ := sizes
  dsimp only at h ⊢
  split at h
  · simp at h
  · split at h
    · simp at h
    · rename_i hlimit
      split at h
      · simp at h
      · rw [if_neg (hwithin.block ▸ hlimit), if_neg (by omega)]
        obtain rfl := Except.ok.inj h
        exact ⟨_, hwithin.beside n, rfl⟩

variable [Release]

theorem rawLiterals_mono (h : rawLiterals limits code s = .ok literals)
    (hwithin : limits.Within wider) : IsReadWider literals (rawLiterals wider code s) := by
  have hroom := hwithin.room
  unfold rawLiterals at h ⊢
  generalize plainSize s = sizes at h ⊢
  obtain ⟨n, header⟩ := sizes
  dsimp only at h ⊢
  split at h
  · simp at h
  · rename_i hlength
    split at h
    · simp at h
    · rename_i hlimit
      split at h
      · simp at h
      · rw [if_neg hlength, if_neg (hwithin.block ▸ hlimit), if_neg (by omega)]
        split at h
        · simp at h
        · obtain rfl := Except.ok.inj h
          refine ⟨_, ?_, rfl⟩
          dsimp only
          split
          · exact hroom
          · exact hwithin.beside n

theorem codedLiterals_mono (h : codedLiterals limits code s = .ok literals)
    (hwithin : limits.Within wider) : IsReadWider literals (codedLiterals wider code s) := by
  have hroom := hwithin.room
  unfold codedLiterals at h ⊢
  generalize codedSizes s = sizes at h ⊢
  obtain ⟨n, coded, header⟩ := sizes
  dsimp only at h ⊢
  split at h
  · simp at h
  · rename_i hlength
    rw [if_neg (hwithin.block ▸ hlength)]
    split at h
    · simp at h
    · rename_i hfew
      rw [if_neg hfew]
      split at h
      · simp at h
      · split at h
        · simp at h
        · rw [if_neg (by omega)]
          split at h
          · simp at h
          · split at h
            · simp at h
            · obtain rfl := Except.ok.inj h
              exact ⟨_, hwithin.beside n, rfl⟩

theorem readLiterals_mono (h : readLiterals limits code s = .ok literals)
    (hwithin : limits.Within wider) : IsReadWider literals (readLiterals wider code s) := by
  unfold readLiterals at h ⊢
  split at h
  · simp at h
  · rename_i hlength
    rw [if_neg hlength]
    split at h
    · exact rawLiterals_mono h hwithin
    · exact repeatedLiterals_mono h hwithin
    · exact codedLiterals_mono h hwithin
    · exact codedLiterals_mono h hwithin
    · simp at h

end Literals

/-! ### Sequences -/

variable [Release]

theorem of_runSequences {t : Tables} {room count : Nat} {states : States} {recent latest : Recent}
    {bits : BlockBits} {w after : Writing}
    (h : runSequences t room count states recent bits w = .ok (after, latest)) :
    w.output.size ≤ after.output.size := by
  induction count generalizing states recent bits w with
  | zero =>
    unfold runSequences at h
    generalize readSequence t states recent bits = found at h
    obtain ⟨sequence, recent, bits⟩ := found
    dsimp only at h
    split at h
    · simp at h
    · rename_i middle hrun
      split at h
      · obtain ⟨rfl, -⟩ := Prod.mk.inj (Except.ok.inj h)
        exact (Writing.of_run hrun).2.2
      · simp at h
  | succ count ih =>
    unfold runSequences at h
    generalize readSequence t states recent bits = found at h
    obtain ⟨sequence, recent, bits⟩ := found
    dsimp only at h
    split at h
    · simp at h
    · rename_i middle hrun
      exact Nat.le_trans (Writing.of_run hrun).2.2 (ih h)

/-- Sequences are carried out alike by a decoder that keeps all that they may copy. -/
theorem runSequences_mono {t : Tables} {room wider earliest count : Nat} {states : States}
    {recent latest : Recent} {bits : BlockBits} {w after : Writing} {history : History}
    (h : runSequences t room count states recent bits w = .ok (after, latest))
    (hfirst : w.history = ⟨0, earliest⟩) (hroom : room ≤ wider)
    (hkeeps : history.Keeps earliest w.written) :
    runSequences t wider count states recent bits (w.within history) =
      .ok (after.within history, latest) := by
  induction count generalizing states recent bits w with
  | zero =>
    unfold runSequences at h ⊢
    generalize readSequence t states recent bits = found at h ⊢
    obtain ⟨sequence, recent, bits⟩ := found
    dsimp only at h ⊢
    split at h
    · simp at h
    · rename_i middle hrun
      split at h
      · rename_i hend
        obtain ⟨rfl, rfl⟩ := Prod.mk.inj (Except.ok.inj h)
        simp only [Writing.run_mono hrun hfirst hroom hkeeps, if_pos hend]
      · simp at h
  | succ count ih =>
    unfold runSequences at h ⊢
    generalize readSequence t states recent bits = found at h ⊢
    obtain ⟨sequence, recent, bits⟩ := found
    dsimp only at h ⊢
    split at h
    · simp at h
    · rename_i middle hrun
      obtain ⟨hwritten, hhistory, -⟩ := Writing.of_run hrun
      simp only [Writing.run_mono hrun hfirst hroom hkeeps]
      exact ih h (hhistory.trans hfirst) (hwritten ▸ hkeeps)

/-! ### Blocks -/

section Blocks

variable {limits wider : Limits} {earliest : Nat} {history : History} {memory after : Memory}
  {output content : Array UInt8} {s : Bytes}

/-- A compressed block is read as its literals, then its sequences, and the literals that they leave
are put behind. -/
theorem runCompressed_eq_ok_iff :
    runCompressed limits history memory output s = .ok (content, after) ↔
      ∃ literals count s₁, readLiterals limits memory.code s = .ok literals ∧
        readCount literals.rest = .ok (count, s₁) ∧
        (count = none ∧ s₁ = [] ∧ after = { memory with code := literals.code } ∧
            (Writing.initial limits history output literals.bytes).finish literals.room =
              .ok content ∨
          (∃ tables s₂, count = some 0 ∧ readTables memory.tables s₁ = .ok (tables, s₂) ∧
            after = Memory.withTables { memory with code := literals.code } tables ∧
            (Writing.initial limits history output literals.bytes).finish literals.room =
              .ok content) ∨
          ∃ more tables s₂ bits w recent, count = some (more + 1) ∧
            readTables memory.tables s₁ = .ok (tables, s₂) ∧ limits.room ≠ 0 ∧
            BlockBits.ofBytes? s₂ = some bits ∧
            runSequences tables literals.room more (States.start tables bits).1 memory.recent
                (States.start tables bits).2
                (Writing.initial limits history output literals.bytes) = .ok (w, recent) ∧
            w.finish literals.room = .ok content ∧
            after = ⟨literals.code, some tables, recent⟩) := by
  unfold runCompressed
  simp only [bind_eq_ok, Prod.exists]
  constructor
  · rintro ⟨literals, hliterals, count, s₁, hcount, hread⟩
    refine ⟨literals, count, s₁, hliterals, hcount, ?_⟩
    cases count with
    | none =>
      dsimp only at hread
      split at hread
      · rename_i hempty
        obtain ⟨found, hfinish, heq⟩ := bind_eq_ok.mp hread
        obtain ⟨rfl, rfl⟩ := Prod.mk.inj (Except.ok.inj heq)
        exact .inl ⟨rfl, List.isEmpty_iff.mp hempty, rfl, hfinish⟩
      · simp at hread
    | some count =>
      cases count with
      | zero =>
        simp only [bind_eq_ok, Prod.exists] at hread
        obtain ⟨tables, s₂, htables, found, hfinish, heq⟩ := hread
        obtain ⟨rfl, rfl⟩ := Prod.mk.inj (Except.ok.inj heq)
        exact .inr (.inl ⟨tables, s₂, rfl, htables, rfl, hfinish⟩)
      | succ more =>
        simp only [bind_eq_ok, Prod.exists] at hread
        obtain ⟨tables, s₂, htables, hread⟩ := hread
        split at hread
        · simp at hread
        · rename_i hroom
          split at hread
          · simp at hread
          · rename_i bits hbits
            simp only [bind_eq_ok, Prod.exists] at hread
            obtain ⟨w, recent, hrun, found, hfinish, heq⟩ := hread
            obtain ⟨rfl, rfl⟩ := Prod.mk.inj (Except.ok.inj heq)
            exact .inr (.inr ⟨more, tables, s₂, bits, w, recent, rfl, htables, hroom, hbits, hrun,
              hfinish, rfl⟩)
  · rintro ⟨literals, count, s₁, hliterals, hcount, ⟨rfl, rfl, rfl, hfinish⟩ |
      ⟨tables, s₂, rfl, htables, rfl, hfinish⟩ |
      ⟨more, tables, s₂, bits, w, recent, rfl, htables, hroom, hbits, hrun, hfinish, rfl⟩⟩
    · exact ⟨literals, hliterals, none, [], hcount, bind_eq_ok.mpr ⟨content, hfinish, rfl⟩⟩
    · refine ⟨literals, hliterals, some 0, s₁, hcount, ?_⟩
      simp only [bind_eq_ok, Prod.exists]
      exact ⟨tables, s₂, htables, content, hfinish, rfl⟩
    · refine ⟨literals, hliterals, some (more + 1), s₁, hcount, ?_⟩
      simp only [bind_eq_ok, Prod.exists]
      refine ⟨tables, s₂, htables, ?_⟩
      simp only [if_neg hroom, hbits, bind_eq_ok, Prod.exists]
      exact ⟨w, recent, hrun, content, hfinish, rfl⟩

/-- A compressed block that is decoded where nothing has been written over is decoded alike within
wider limits, by a decoder that keeps all that the block may copy. -/
theorem runCompressed_mono
    (hread : runCompressed limits ⟨0, earliest⟩ memory output s = .ok (content, after))
    (hwithin : limits.Within wider)
    (hkeeps : history.Keeps earliest (output.size + limits.block + 64)) :
    runCompressed wider history memory output s = .ok (content, after) := by
  obtain ⟨literals, count, s₁, hliterals, hcount, hrest⟩ := runCompressed_eq_ok_iff.mp hread
  obtain ⟨more, hmore, hliterals'⟩ := readLiterals_mono hliterals hwithin
  have hinitial : Writing.initial wider history output literals.bytes =
      (Writing.initial limits ⟨0, earliest⟩ output literals.bytes).within history := by
    rw [Writing.initial, ← hwithin.block]
    rfl
  refine runCompressed_eq_ok_iff.mpr ⟨_, count, s₁, hliterals', hcount, ?_⟩
  simp only [hinitial]
  have hfinish_mono : ∀ {w : Writing} {output : Array UInt8}, w.finish literals.room = .ok output →
      (w.within history).finish more = .ok output := by
    intro w output hfinish
    obtain ⟨hfits, rfl⟩ := Writing.finish_eq_ok_iff.mp hfinish
    exact Writing.finish_eq_ok_iff.mpr ⟨Nat.le_trans hfits hmore, rfl⟩
  obtain ⟨rfl, rfl, rfl, hfinish⟩ | ⟨tables, s₂, rfl, htables, rfl, hfinish⟩ |
    ⟨count, tables, s₂, bits, w, recent, rfl, htables, hnone, hbits, hrun, hfinish, rfl⟩ := hrest
  · exact .inl ⟨rfl, rfl, rfl, hfinish_mono hfinish⟩
  · exact .inr (.inl ⟨tables, s₂, rfl, htables, rfl, hfinish_mono hfinish⟩)
  · have hrun' := runSequences_mono hrun rfl hmore hkeeps
    have hpositive : wider.room ≠ 0 := by
      have := hwithin.room
      omega
    exact .inr (.inr ⟨count, tables, s₂, bits, _, recent, rfl, htables, hpositive, hbits, hrun',
      hfinish_mono hfinish, rfl⟩)

/-- A compressed block adds to the content of its frame. -/
theorem size_le_of_runCompressed
    (hread : runCompressed limits history memory output s = .ok (content, after)) :
    output.size ≤ content.size := by
  have hfinish_size : ∀ {w : Writing} {room : Nat}, output.size ≤ w.output.size →
      w.finish room = .ok content → output.size ≤ content.size := by
    intro w room hgrows hfinish
    obtain ⟨-, rfl⟩ := Writing.finish_eq_ok_iff.mp hfinish
    rw [size_appendBytes]
    exact Nat.le_trans hgrows (Nat.le_add_right _ _)
  obtain ⟨literals, count, s₁, -, -, ⟨-, -, -, hfinish⟩ | ⟨-, -, -, -, -, hfinish⟩ |
    ⟨more, tables, s₂, bits, w, recent, -, -, -, -, hrun, hfinish, -⟩⟩ :=
    runCompressed_eq_ok_iff.mp hread
  · exact hfinish_size (Nat.le_refl _) hfinish
  · exact hfinish_size (Nat.le_refl _) hfinish
  · exact hfinish_size (of_runSequences hrun) hfinish

/-- There is no compressed block without a byte. -/
theorem not_runCompressed_nil :
    runCompressed limits history memory output [] ≠ .ok (content, after) := by
  intro hread
  obtain ⟨literals, hliterals, -⟩ := bind_eq_ok.mp hread
  simp [readLiterals] at hliterals

end Blocks

end Intake.Zstd
