import UDepot.Lib.Memory

/-!
# Transfers in parts

The system may transfer fewer bytes than it is asked to.  `pwrite_full_fd`, `send_full` and
`recv_full` go on where a transfer ended until everything is there or a call fails.

However the system splits them, a write that returns the count has left exactly the buffer in the
file, one that fails a part of it from its beginning (`pwriteFullFd_writes`), and what one side
sends in full is what the other receives in full (`sendFull_recvFull`).
-/

namespace UDepot.Io

/-! ### Errors -/

def eintr : Nat := 4

def eio : Nat := 5

def eagain : Nat := 11

def econnreset : Nat := 104

/-! ### Loops -/

/-- What a call of the system comes to: at most so many bytes are transferred, or it fails. -/
inductive Moved where
  | bytes (n : Nat)
  | fails (errno : Nat) (hpos : 0 < errno)
  deriving DecidableEq

/-- What the loops differ in: the errors after which they try again, and what they return if nothing
was transferred. -/
structure Kind where
  retries : Nat → Bool
  atEnd : Int
  atEnd_neg : atEnd < 0

variable {σ : Type}

/-- A loop that transfers `count` bytes, of which `done` are transferred; the answers are those of
the system to its calls.  It returns an error, if there was one, with the bytes transferred and what
came of them. -/
def full (kind : Kind) (move : σ → Nat → Nat → σ) (count : Nat) :
    σ → Nat → List Moved → Option (Option Int × Nat × σ)
  | s, done, [] => if count ≤ done then some (none, done, s) else none
  | s, done, answer :: answers =>
      if count ≤ done then some (none, done, s)
      else match answer with
        | .fails errno _ =>
            if kind.retries errno then full kind move count s done answers
            else some (some (-errno), done, s)
        | .bytes 0 => some (some kind.atEnd, done, s)
        | .bytes (n + 1) =>
            full kind move count (move s done (min (n + 1) (count - done)))
              (done + min (n + 1) (count - done)) answers

/-- The answers of the system after which a loop is further, or ends. -/
def Kind.Advances (kind : Kind) : Moved → Bool
  | .fails errno _ => !kind.retries errno
  | .bytes _ => true

section

variable {kind : Kind} {move : σ → Nat → Nat → σ} {count done done' : Nat} {s s' : σ}
  {answers : List Moved}
  {rc : Option Int}

/-- A loop keeps what every transfer keeps, and ends with everything transferred or with an
error. -/
theorem full_spec
    {P : σ → Nat → Prop}
    (hmove : ∀ {s done n}, P s done → done + n ≤ count → P (move s done n) (done + n))
    (h : full kind move count s done answers = some (rc, done', s')) (hP : P s done)
    (hle : done ≤ count) :
  P s' done' ∧ (rc = none ∧ done' = count ∨ (∃ e < 0, rc = some e) ∧ done' < count)
  := by
  induction answers generalizing s done with
  | nil =>
      rw [full] at h
      split at h
      · cases h
        exact ⟨hP, .inl ⟨rfl, by omega⟩⟩
      · cases h
  | cons a answers ih =>
      unfold full at h
      split at h
      · cases h
        exact ⟨hP, .inl ⟨rfl, by omega⟩⟩
      · rename_i hlt
        cases a with
        | fails errno hpos =>
            simp only at h
            split at h
            · exact ih h hP hle
            · cases h
              exact ⟨hP, .inr ⟨⟨-errno, by omega, rfl⟩, by omega⟩⟩
        | bytes n =>
            cases n with
            | zero =>
                cases h
                exact ⟨hP, .inr ⟨⟨kind.atEnd, kind.atEnd_neg, rfl⟩, by omega⟩⟩
            | succ n => exact ih h (hmove hP (by omega)) (by omega)

/-- A loop ends when the system has answered often enough. -/
theorem full_isSome
    (h : count ≤ done + answers.countP kind.Advances) :
  (full kind move count s done answers).isSome = true
  := by
  induction answers generalizing s done with
  | nil =>
      rw [List.countP_nil, Nat.add_zero] at h
      rw [full, if_pos h]
      rfl
  | cons a answers ih =>
      unfold full
      split
      · rfl
      · rw [List.countP_cons] at h
        cases a with
        | fails errno hpos =>
            simp only
            split
            · rename_i hretries
              apply ih
              simpa [Kind.Advances, hretries] using h
            · rfl
        | bytes n =>
            cases n with
            | zero => rfl
            | succ n =>
                apply ih
                simp only [Kind.Advances, if_true] at h
                omega

end

/-! ### Writing a file -/

/-- The result of a loop that returns `count` in the end. -/
def result (count : Nat) (rc : Option Int) : Int := rc.getD count

theorem neg_eio : -(eio : Int) < 0 := by decide

def pwriteKind : Kind := ⟨fun errno => errno == eintr, -eio, neg_eio⟩

/-- A write of bytes of the buffer where they go. -/
def pwriteMove (buf : List UInt8) (offset : Nat) (file : Nat → UInt8) (done n : Nat) :
    Nat → UInt8 :=
  Memory.write file (offset + done) ((buf.drop done).take n)

/-- `pwrite_full_fd`, with what the file is afterwards. -/
def pwriteFullFd (file : Nat → UInt8) (buf : List UInt8) (offset : Nat) (answers : List Moved) :
    Option (Int × (Nat → UInt8)) :=
  (full pwriteKind (pwriteMove buf offset) buf.length file 0 answers).map fun (rc, _, file) =>
    (result buf.length rc, file)

/-- If the system answers often enough, the write returns: the count, and then the buffer is in the
file, or an error, and then a part of it from its beginning is.  Nothing else in the file is
changed. -/
theorem pwriteFullFd_writes
    {buf : List UInt8} {answers : List Moved} (h : buf.length ≤ answers.countP pwriteKind.Advances)
    (file : Nat → UInt8) (offset : Nat) :
  ∃ rc file' k, pwriteFullFd file buf offset answers = some (rc, file')
    ∧ file' = Memory.write file offset (buf.take k)
    ∧ (rc = buf.length ∧ k = buf.length ∨ rc < 0 ∧ k < buf.length)
  := by
  have hsome : (full pwriteKind (pwriteMove buf offset) buf.length file 0 answers).isSome = true :=
    full_isSome (by omega)
  obtain ⟨⟨rc, k, file'⟩, hfull⟩ := Option.isSome_iff_exists.mp hsome
  have hmove : ∀ {f : Nat → UInt8} {done n : Nat}, f = Memory.write file offset (buf.take done) →
      done + n ≤ buf.length →
      pwriteMove buf offset f done n = Memory.write file offset (buf.take (done + n)) := by
    intro f done n hf hle
    rw [hf, List.take_add, Memory.write_append, List.length_take, Nat.min_eq_left (by omega),
      pwriteMove]
  obtain ⟨hfile, hend⟩ :=
    full_spec (P := fun f done => f = Memory.write file offset (buf.take done))
    hmove hfull (by rw [List.take_zero, Memory.write_nil]) (Nat.zero_le _)
  refine ⟨result buf.length rc, file', k, by rw [pwriteFullFd, hfull]; rfl, hfile, ?_⟩
  obtain ⟨rfl, hk⟩ | ⟨⟨e, he, rfl⟩, hk⟩ := hend
  · exact .inl ⟨rfl, hk⟩
  · exact .inr ⟨he, hk⟩

theorem eintr_pos : 0 < eintr := by decide

/-- The buffer is written in three parts, one of them after an interruption. -/
theorem pwriteFullFd_in_parts :
    ∃ rc file' k, pwriteFullFd (fun _ => 0) [1, 2, 3] 4
        [.bytes 1, .fails eintr eintr_pos, .bytes 1, .bytes 9] = some (rc, file')
      ∧ file' = Memory.write (fun _ => 0) 4 ([1, 2, 3].take k)
        ∧ (rc = 3 ∧ k = 3 ∨ rc < 0 ∧ k < 3) :=
  pwriteFullFd_writes (by decide) _ _

/-! ### Sending and receiving -/

theorem neg_econnreset : -(econnreset : Int) < 0 := by decide

def connectionKind : Kind := ⟨fun _ => false, -econnreset, neg_econnreset⟩

/-- `send_full`, with what is in the stream afterwards. -/
def sendFull (stream buf : List UInt8) (answers : List Moved) : Option (Int × List UInt8) :=
  (full connectionKind (fun stream done n => stream ++ (buf.drop done).take n)
    buf.length stream 0 answers).map fun (rc, _, stream) => (result 0 rc, stream)

/-- `recv_full`, with what is in the buffer and in the stream afterwards. -/
def recvFull (stream : List UInt8) (len : Nat) (answers : List Moved) :
    Option (Int × List UInt8 × List UInt8) :=
  (full connectionKind (fun (s : List UInt8 × List UInt8) _ n => (s.1 ++ s.2.take n, s.2.drop n))
    len ([], stream) 0 answers).map fun (rc, _, s) => (result 0 rc, s)

/-- What is sent is a part of the buffer from its beginning, and all of it if no error is
returned. -/
theorem sendFull_spec
    {stream stream' buf : List UInt8} {answers : List Moved} {rc : Int}
    (h : sendFull stream buf answers = some (rc, stream')) :
  ∃ k, stream' = stream ++ buf.take k ∧ (rc = 0 ∧ k = buf.length ∨ rc < 0 ∧ k < buf.length)
  := by
  obtain ⟨⟨rc₀, k, stream₀⟩, hfull, ⟨⟩⟩ := Option.map_eq_some_iff.mp h
  obtain ⟨hstream, hend⟩ := full_spec (P := fun st done => st = stream ++ buf.take done)
    (fun hst _ => by rw [hst, List.take_add, List.append_assoc]) hfull
    (by rw [List.take_zero, List.append_nil]) (Nat.zero_le _)
  refine ⟨k, hstream, ?_⟩
  obtain ⟨rfl, hk⟩ | ⟨⟨e, he, rfl⟩, hk⟩ := hend
  · exact .inl ⟨rfl, hk⟩
  · exact .inr ⟨he, hk⟩

/-- What is received is taken from the beginning of the stream, and is as long as asked for if no
error is returned. -/
theorem recvFull_spec
    {stream stream' got : List UInt8} {len : Nat} {answers : List Moved} {rc : Int}
    (h : recvFull stream len answers = some (rc, got, stream')) :
  ∃ k, got = stream.take k ∧ stream' = stream.drop k ∧ (rc = 0 ∧ k = len ∨ rc < 0 ∧ k < len)
  := by
  obtain ⟨⟨rc₀, k, s₀⟩, hfull, ⟨⟩⟩ := Option.map_eq_some_iff.mp h
  obtain ⟨⟨hgot, hrest⟩, hend⟩ := full_spec
    (P := fun s done => s.1 = stream.take done ∧ s.2 = stream.drop done)
    (fun ⟨hgot, hrest⟩ _ => by rw [hgot, hrest, List.take_add, List.drop_drop]; exact ⟨rfl, rfl⟩)
      hfull
    ⟨List.take_zero.symm, List.drop_zero.symm⟩ (Nat.zero_le _)
  refine ⟨k, hgot, hrest, ?_⟩
  obtain ⟨rfl, hk⟩ | ⟨⟨e, he, rfl⟩, hk⟩ := hend
  · exact .inl ⟨rfl, hk⟩
  · exact .inr ⟨he, hk⟩

/-- What one side sends in full and the other receives in full is the buffer, however the system
splits the one and the other. -/
theorem sendFull_recvFull
    {buf stream got rest : List UInt8} {sends receives : List Moved}
    (hsend : sendFull [] buf sends = some (0, stream))
    (hrecv : recvFull stream buf.length receives = some (0, got, rest)) :
  got = buf ∧ rest = []
  := by
  obtain ⟨k, rfl, ⟨-, rfl⟩ | ⟨hneg, -⟩⟩ := sendFull_spec hsend
  · obtain ⟨k, rfl, rfl, ⟨-, rfl⟩ | ⟨hneg, -⟩⟩ := recvFull_spec hrecv
    · simp
    · exact absurd hneg (by decide)
  · exact absurd hneg (by decide)

/-- Sent in two parts and received in two others. -/
theorem sendFull_in_parts :
    sendFull [] [1, 2, 3] [.bytes 2, .bytes 1] = some (0, [1, 2, 3])
      ∧ ∃ got rest, recvFull [1, 2, 3] 3 [.bytes 1, .bytes 7] = some (0, got, rest)
        ∧ got = [1, 2, 3] ∧ rest = [] := by
  have hsend : sendFull [] [1, 2, 3] [.bytes 2, .bytes 1] = some (0, [1, 2, 3]) := rfl
  have hrecv : recvFull [1, 2, 3] [1, 2, 3].length [.bytes 1, .bytes 7] = some (0, [1, 2, 3], []) :=
    rfl
  exact ⟨hsend, _, _, hrecv, sendFull_recvFull hsend hrecv⟩

end UDepot.Io
