import Mathlib.Data.List.Basic

/-! Fixed-length frames sent over a byte stream and read into one buffer that is
handed on after every read. The buffer keeps what a short read does not
overwrite. The receiver reproduces the frames exactly when no read is short. -/

namespace Baseliner.FixedFrames

variable {α : Type*} {n : Nat}

@[ext] structure Frame (α : Type*) (n : Nat) where
  toList : List α
  length_eq : toList.length = n
  deriving DecidableEq

/-- A read of `seg` into the buffer, from its start. -/
def Frame.overwrite (buf : Frame α n) (seg : List α) : Frame α n where
  toList := (seg ++ buf.toList.drop seg.length).take n
  length_eq := by
    rw [List.length_take, List.length_append, List.length_drop, buf.length_eq]
    omega

def buffers (buf : Frame α n) : List (List α) → List (Frame α n)
  | [] => []
  | seg :: segs => buf.overwrite seg :: buffers (buf.overwrite seg) segs

def stream (frames : List (Frame α n)) : List α := (frames.map Frame.toList).flatten

@[simp] theorem stream_nil : stream ([] : List (Frame α n)) = [] := rfl

@[simp] theorem stream_cons (f : Frame α n) (frames : List (Frame α n)) :
    stream (f :: frames) = f.toList ++ stream frames := rfl

theorem buffers_length (buf : Frame α n) (segs : List (List α)) :
    (buffers buf segs).length = segs.length := by
  induction segs generalizing buf with
  | nil => rfl
  | cons seg segs ih => rw [buffers, List.length_cons, ih, List.length_cons]

theorem stream_length (frames : List (Frame α n)) :
    (stream frames).length = n * frames.length := by
  induction frames with
  | nil => rfl
  | cons f frames ih =>
      rw [stream_cons, List.length_append, ih, f.length_eq, List.length_cons, Nat.mul_succ]
      omega

theorem overwrite_full (buf : Frame α n) {seg : List α} (full : seg.length = n) :
    (buf.overwrite seg).toList = seg := by
  subst full
  exact List.take_left

theorem buffers_of_full (pos : 0 < n) (buf : Frame α n) {segs : List (List α)}
    {frames : List (Frame α n)} (same : segs.flatten = stream frames)
    (full : ∀ seg ∈ segs, seg.length = n) : buffers buf segs = frames := by
  induction segs generalizing buf frames with
  | nil =>
      cases frames with
      | nil => rfl
      | cons f frames =>
          have empty := congrArg List.length same
          rw [stream_length, List.length_cons, Nat.mul_succ] at empty
          simp only [List.flatten_nil, List.length_nil] at empty
          omega
  | cons seg segs ih =>
      have own : seg.length = n := full seg (by simp)
      cases frames with
      | nil =>
          have empty := congrArg List.length same
          simp only [List.flatten_cons, List.length_append, stream_nil, List.length_nil] at empty
          omega
      | cons f frames =>
          rw [List.flatten_cons, stream_cons] at same
          obtain ⟨first, rest⟩ := List.append_inj same (own.trans f.length_eq.symm)
          have head : buf.overwrite seg = f := by
            ext1
            rw [overwrite_full buf own, first]
          rw [buffers, ih _ rest fun s hs => full s (by simp [hs]), head]

theorem flatten_length_le {segs : List (List α)} (short : ∀ seg ∈ segs, seg.length ≤ n) :
    segs.flatten.length ≤ n * segs.length := by
  induction segs with
  | nil => simp
  | cons seg segs ih =>
      have own := short seg (by simp)
      have rest := ih fun s hs => short s (by simp [hs])
      rw [List.flatten_cons, List.length_append, List.length_cons, Nat.mul_succ]
      omega

/-- Reads of at most `n` elements that reach the bound on average are all full. -/
theorem full_of_flatten_length {segs : List (List α)} (short : ∀ seg ∈ segs, seg.length ≤ n)
    (total : n * segs.length ≤ segs.flatten.length) : ∀ seg ∈ segs, seg.length = n := by
  induction segs with
  | nil => simp
  | cons seg segs ih =>
      have own := short seg (by simp)
      have rest : ∀ s ∈ segs, s.length ≤ n := fun s hs => short s (by simp [hs])
      have bound := flatten_length_le rest
      rw [List.flatten_cons, List.length_append, List.length_cons, Nat.mul_succ] at total
      intro s hs
      rcases List.mem_cons.mp hs with rfl | hs
      · omega
      · exact ih rest (by omega) s hs

theorem buffers_eq_iff (pos : 0 < n) (buf : Frame α n) {segs : List (List α)}
    {frames : List (Frame α n)} (short : ∀ seg ∈ segs, seg.length ≤ n)
    (same : segs.flatten = stream frames) :
    buffers buf segs = frames ↔ ∀ seg ∈ segs, seg.length = n := by
  constructor
  · intro h
    refine full_of_flatten_length short (Nat.le_of_eq ?_)
    rw [same, stream_length, ← h, buffers_length]
  · exact buffers_of_full pos buf same

end Baseliner.FixedFrames
