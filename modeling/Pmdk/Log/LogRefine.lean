import Pmdk.Log.Log

/-!
# A log pool is a sequence of bytes

Between two calls every byte and the write offset are durable. A call that is cut before it has
stored the write offset leaves the bytes below the old one as they were; afterwards all data is
durable, and the crash decides between the old and the new offset.
-/

namespace Pmdk.Log

open List

/-! ## The specification -/

structure Content where
  bytes : List UInt8
  rdonly : Bool
  deriving DecidableEq

/-- Appending in a log of `room` bytes. -/
def Content.append (room : Nat) (x : Content) (buf : List UInt8) : Result × Content :=
  if x.rdonly then (.error .EROFS, x)
  else if room ≤ x.bytes.length ∨ room < x.bytes.length + buf.length then (.error .ENOSPC, x)
  else (.ok, { x with bytes := x.bytes ++ buf })

def Content.call (room : Nat) (x : Content) : Call → Result × Content
  | .append buf => x.append room buf
  | .appendv iovcnt iov =>
    if iovcnt < 0 then (.error .EINVAL, x) else x.append room (iov.take iovcnt.toNat).flatten
  | .rewind => if x.rdonly then (.error .EROFS, x) else (.ok, { x with bytes := [] })
  | .tell => (.offset x.bytes.length, x)

def Outcome (room : Nat) : Event → Content → Content → Prop
  | .call c result, x, y => x.call room c = (result, y)
  | .crash c _ _ _, x, y => y.bytes = x.bytes ∨ y.bytes = (x.call room c).2.bytes
  | .openCommon _ rdonly, x, y => y = { x with rdonly }

/-- The buffers of a call have less than `2 ^ 64` bytes altogether. -/
def Call.Fits : Call → Prop
  | .appendv iovcnt iov => ((iov.take iovcnt.toNat).map List.length).sum < 2 ^ 64
  | _ => True

def Event.Fits : Event → Prop
  | .call c _ | .crash c _ _ _ => c.Fits
  | .openCommon _ _ => True

/-- The bytes from `startOffset` up to the write offset. -/
def Image.bytes (image : Image) : List UInt8 :=
  (List.range (image.writeOffset - startOffset)).map fun i => image.data (startOffset + i)

def State.Shows (poolsize : Nat) (x : Content) : State → Prop
  | .up p => p.endOffset = poolsize ∧ p.mem.current.bytes = x.bytes ∧ p.rdonly = x.rdonly
  | .down poolsize' image => poolsize' = poolsize ∧ image.bytes = x.bytes ∧
      logDescrCheck poolsize image = true

/-- The image has the bytes `xs`, and the write offset says so. -/
structure Image.Has (image : Image) (poolsize : Nat) (xs : List UInt8) : Prop where
  offset : image.writeOffset = startOffset + xs.length
  bound : startOffset + xs.length ≤ poolsize
  byte : ∀ i (h : i < xs.length), image.data (startOffset + i) = xs[i]

theorem Image.Has.bytes_eq {image : Image} {poolsize : Nat} {xs : List UInt8}
    (h : image.Has poolsize xs) : image.bytes = xs := by
  rw [Image.bytes, h.offset, Nat.add_sub_cancel_left]
  apply ext_getElem
  · simp
  · intro i hi hi'
    rw [getElem_map, getElem_range]
    exact h.byte i hi'

theorem Image.Has.descrCheck {image : Image} {poolsize : Nat} {xs : List UInt8}
    (h : image.Has poolsize xs) : logDescrCheck poolsize image = true := by
  have := h.offset
  have := h.bound
  rw [logDescrCheck, decide_eq_true_eq]
  omega

/-! ## Calls -/

variable {iov : List (List UInt8)}

section Calls

variable {m : Mem} {poolsize : Nat} {xs : List UInt8}

theorem Keeps.crash_has {m' : Mem} (h : Keeps m (startOffset + xs.length) m')
    (hm : m.current.Has poolsize xs) (pick : Nat → Nat) (pickOffset : Nat) :
    (m'.crash pick pickOffset).Has poolsize xs := by
  refine ⟨?_, hm.bound, fun i hi => ?_⟩
  · exact (h.offset.1.pick_eq pickOffset).trans (h.offset.2.trans hm.offset)
  · have hdata := h.data (startOffset + i) (Nat.add_lt_add_left hi startOffset)
    exact (hdata.1.pick_eq _).trans (hdata.2.trans (hm.byte i hi))

/-- A crash while the write offset moves from the end of `xs` to the end of `ys`, when the
memory has the bytes of both. -/
theorem Moving.crash_has {m' : Mem} {ys : List UInt8}
    (h : Moving m (startOffset + ys.length) m') (hm : m.current.Has poolsize xs)
    (hys : ({ m.current with writeOffset := startOffset + ys.length }).Has poolsize ys)
    (pick : Nat → Nat) (pickOffset : Nat) :
    (m'.crash pick pickOffset).Has poolsize xs ∨ (m'.crash pick pickOffset).Has poolsize ys := by
  have hdata : ∀ a, (m'.crash pick pickOffset).data a = m.current.data a :=
    fun a => ((h.data a).1.pick_eq _).trans (h.data a).2
  rcases h.offset pickOffset with hoffset | hoffset
  · exact .inl ⟨hoffset.trans hm.offset, hm.bound, fun i hi => (hdata _).trans (hm.byte i hi)⟩
  · exact .inr ⟨hoffset, hys.bound, fun i hi => (hdata _).trans (hys.byte i hi)⟩

def copySteps (isPmem : Bool) (w : Nat) (iov : List (List UInt8)) : List Micro :=
  memcpyv isPmem w iov ++ [persistData isPmem w iov.flatten.length]

def appendSteps (isPmem : Bool) (w : Nat) (iov : List (List UInt8)) : List Micro :=
  memcpyv isPmem w iov ++ logPersist isPmem w (w + (iov.map List.length).sum)

theorem appendSteps_eq (isPmem : Bool) (w : Nat) (iov : List (List UInt8)) :
    appendSteps isPmem w iov =
      copySteps isPmem w iov ++ persistOffset isPmem (w + iov.flatten.length) := by
  have hlen : (iov.map List.length).sum = iov.flatten.length := length_flatten.symm
  rw [appendSteps, copySteps, hlen, logPersist, Nat.add_sub_cancel_left, append_assoc]
  cases isPmem with
  | false => rfl
  | true => rfl

theorem copySteps_copies {isPmem : Bool} {w : Nat} : ∀ i ∈ copySteps isPmem w iov, i.Copies w := by
  intro i hi
  rw [copySteps, mem_append, mem_singleton] at hi
  rcases hi with hi | rfl
  · exact memcpyv_copies (Nat.le_refl w) i hi
  · cases isPmem with
    | false => trivial
    | true => trivial

theorem Mem.Durable.copied (h : m.Durable) (isPmem : Bool) (hm : m.current.Has poolsize xs)
    (hroom : startOffset + xs.length + iov.flatten.length ≤ poolsize) :
    (execAll m (copySteps isPmem (startOffset + xs.length) iov)).Durable ∧
      (execAll m (copySteps isPmem (startOffset + xs.length) iov)).current.Has poolsize xs ∧
      ({ (execAll m (copySteps isPmem (startOffset + xs.length) iov)).current with
        writeOffset := startOffset + (xs ++ iov.flatten).length }).Has poolsize
          (xs ++ iov.flatten) := by
  have hkeeps : Keeps m (startOffset + xs.length)
      (execAll m (copySteps isPmem (startOffset + xs.length) iov)) :=
    (h.keeps _).execAll copySteps_copies
  have hwritten := (Written.nil isPmem (startOffset + xs.length) h).memcpyv iov
  rw [nil_append, length_nil, Nat.add_zero] at hwritten
  have hdurable := hwritten.persistData
  have hcopy : execAll m (copySteps isPmem (startOffset + xs.length) iov) =
      (persistData isPmem (startOffset + xs.length) iov.flatten.length).exec
        (execAll m (memcpyv isPmem (startOffset + xs.length) iov)) := by
    rw [copySteps, execAll_append]
    rfl
  have hold : ∀ i (hi : i < xs.length),
      (execAll m (copySteps isPmem (startOffset + xs.length) iov)).current.data
        (startOffset + i) = xs[i] := by
    intro i hi
    exact (hkeeps.data _ (Nat.add_lt_add_left hi startOffset)).2.trans (hm.byte i hi)
  refine ⟨hcopy ▸ hdurable.1, ⟨hkeeps.offset.2.trans hm.offset, hm.bound, hold⟩, rfl, ?_, ?_⟩
  · rw [length_append, ← Nat.add_assoc]
    exact hroom
  · intro i hi
    by_cases hxs : i < xs.length
    · rw [getElem_append_left hxs]
      exact hold i hxs
    · obtain ⟨j, rfl⟩ := Nat.exists_eq_add_of_le (Nat.le_of_not_lt hxs)
      have hj : j < iov.flatten.length := by
        rw [length_append] at hi
        exact Nat.lt_of_add_lt_add_left hi
      have hbyte := (hdurable.2 (startOffset + xs.length + j)).trans (hwritten.byte j hj).1
      rw [← hcopy, Nat.add_assoc] at hbyte
      rw [getElem_append_right (Nat.le_add_right ..)]
      refine hbyte.trans ?_
      congr 1
      exact (Nat.add_sub_cancel_left ..).symm

/-- The steps `ms` replace the bytes `xs` by `ys`, and a crash among them leaves one of both. -/
structure Serves (m : Mem) (ms : List Micro) (poolsize : Nat) (xs ys : List UInt8) : Prop where
  durable : (execAll m ms).Durable
  has : (execAll m ms).current.Has poolsize ys
  crash : ∀ k pick pickOffset,
    ((execAll m (ms.take k)).crash pick pickOffset).Has poolsize xs ∨
      ((execAll m (ms.take k)).crash pick pickOffset).Has poolsize ys

theorem Serves.nil (h : m.Durable) (hm : m.current.Has poolsize xs) :
    Serves m [] poolsize xs xs := by
  refine ⟨h, hm, fun k pick pickOffset => .inl ?_⟩
  rw [take_nil]
  exact (h.keeps _).crash_has hm pick pickOffset

theorem Serves.append (h : m.Durable) (hm : m.current.Has poolsize xs) (isPmem : Bool)
    (hroom : startOffset + xs.length + iov.flatten.length ≤ poolsize) :
    Serves m (appendSteps isPmem (startOffset + xs.length) iov) poolsize xs
      (xs ++ iov.flatten) := by
  obtain ⟨hdurable, hold, hnew⟩ := h.copied isPmem hm hroom
  have hoffset := hdurable.persistOffset isPmem (startOffset + (xs ++ iov.flatten).length)
  rw [appendSteps_eq, Nat.add_assoc, ← length_append]
  refine ⟨?_, ?_, fun k pick pickOffset => ?_⟩
  · rw [execAll_append]
    exact hoffset.1
  · rw [execAll_append, hoffset.2]
    exact hnew
  · by_cases hk : k ≤ (copySteps isPmem (startOffset + xs.length) iov).length
    -- before the write offset is stored
    · rw [take_append_of_le_length hk]
      have hcopies : ∀ i ∈ (copySteps isPmem (startOffset + xs.length) iov).take k,
          i.Copies (startOffset + xs.length) :=
        fun i hi => copySteps_copies i (mem_of_mem_take hi)
      exact .inl (((h.keeps _).execAll hcopies).crash_has hm pick pickOffset)
    -- from then on the data is durable
    · rw [take_append, take_of_length_le (Nat.le_of_not_le hk), execAll_append]
      exact (hdurable.persistOffset_take isPmem _ _).crash_has hold hnew pick pickOffset

theorem Serves.rewind (h : m.Durable) (hm : m.current.Has poolsize xs) (isPmem : Bool) :
    Serves m (persistOffset isPmem startOffset) poolsize xs [] := by
  have hoffset := h.persistOffset isPmem startOffset
  have hbound : startOffset ≤ poolsize := Nat.le_trans (Nat.le_add_right ..) hm.bound
  have hnil : ({ m.current with writeOffset := startOffset }).Has poolsize [] :=
    ⟨rfl, hbound, fun i hi => absurd hi (Nat.not_lt_zero i)⟩
  refine ⟨hoffset.1, ?_, fun k pick pickOffset => ?_⟩
  · rw [hoffset.2]
    exact hnil
  · have hmoving := h.persistOffset_take isPmem startOffset k
    exact @Moving.crash_has _ _ _ _ [] hmoving hm hnil pick pickOffset

end Calls

/-! ## Runs -/

structure Pool.Represents (p : Pool) (poolsize : Nat) (x : Content) : Prop where
  endOffset : p.endOffset = poolsize
  durable : p.mem.Durable
  has : p.mem.current.Has poolsize x.bytes
  rdonly : p.rdonly = x.rdonly

namespace Pool.Represents

variable {p : Pool} {poolsize : Nat} {x : Content}

theorem writeOffset_eq (h : p.Represents poolsize x) :
    p.writeOffset = startOffset + x.bytes.length := h.has.offset

/-- The call `c` is answered as the specification does it. -/
def Answers (p : Pool) (c : Call) (poolsize : Nat) (xs : List UInt8) (y : Result × Content) :
    Prop :=
  p.result c = y.1 ∧ Serves p.mem (p.steps c) poolsize xs y.2.bytes

variable {c : Call}

theorem answers_ok {ms : List Micro} {y : Content} (hc : c ≠ .tell) (hms : p.micros c = .ok ms)
    (h : Serves p.mem ms poolsize x.bytes y.bytes) : Answers p c poolsize x.bytes (.ok, y) := by
  refine ⟨?_, ?_⟩
  · cases c with
    | tell => exact absurd rfl hc
    | _ => simp only [Pool.result, hms]
  · rw [Pool.steps, hms]
    exact h

theorem answers_error (h : p.Represents poolsize x) {e : Errno} (hc : c ≠ .tell)
    (he : p.micros c = .error e) : Answers p c poolsize x.bytes (.error e, x) := by
  refine ⟨?_, ?_⟩
  · cases c with
    | tell => exact absurd rfl hc
    | _ => simp only [Pool.result, he]
  · rw [Pool.steps, he]
    exact .nil h.durable h.has

theorem append (h : p.Represents poolsize x) (iov : List (List UInt8)) (hc : c ≠ .tell)
    (hmicros : p.micros c = if p.rdonly then .error .EROFS
      else if p.writeOffset ≥ p.endOffset then .error .ENOSPC
      else if iov.flatten.length > p.endOffset - p.writeOffset then .error .ENOSPC
      else .ok (appendSteps p.isPmem p.writeOffset iov)) :
    Answers p c poolsize x.bytes (x.append (poolsize - startOffset) iov.flatten) := by
  have hbound := h.has.bound
  rw [h.writeOffset_eq, h.endOffset, h.rdonly] at hmicros
  rw [Content.append]
  by_cases hro : x.rdonly = true
  · rw [if_pos hro] at hmicros ⊢
    exact h.answers_error hc hmicros
  rw [if_neg hro] at hmicros ⊢
  by_cases hfull : poolsize ≤ startOffset + x.bytes.length
  · rw [if_pos hfull] at hmicros
    rw [if_pos (.inl (by omega))]
    exact h.answers_error hc hmicros
  rw [if_neg hfull] at hmicros
  by_cases hlen : iov.flatten.length > poolsize - (startOffset + x.bytes.length)
  · rw [if_pos hlen] at hmicros
    rw [if_pos (.inr (by omega))]
    exact h.answers_error hc hmicros
  rw [if_neg hlen] at hmicros
  rw [if_neg (by omega)]
  exact answers_ok hc hmicros (.append h.durable h.has p.isPmem (by omega))

theorem call (h : p.Represents poolsize x) (hc : c.Fits) :
    Answers p c poolsize x.bytes (x.call (poolsize - startOffset) c) := by
  cases c with
  | append buf =>
    have hflatten : [buf].flatten = buf := flatten_singleton
    have hsteps : ∀ w, memcpy p.isPmem w buf ++ logPersist p.isPmem w (w + buf.length) =
        appendSteps p.isPmem w [buf] := by
      intro w
      rw [appendSteps, memcpyv, memcpyv, append_nil]
      rfl
    have happend := h.append (c := .append buf) [buf] (by simp)
      (by rw [Pool.micros, pmemlogAppend, hsteps, hflatten])
    rw [hflatten] at happend
    exact happend
  | appendv iovcnt iov =>
    rw [Content.call]
    by_cases hcnt : iovcnt < 0
    · rw [if_pos hcnt]
      exact h.answers_error (by simp) (by rw [Pool.micros, pmemlogAppendv, if_pos hcnt])
    rw [if_neg hcnt]
    refine h.append _ (by simp) ?_
    rw [Pool.micros, pmemlogAppendv, if_neg hcnt]
    dsimp only
    rw [Nat.mod_eq_of_lt hc, length_flatten]
    rfl
  | rewind =>
    rw [Content.call]
    by_cases hro : x.rdonly = true
    · rw [if_pos hro]
      exact h.answers_error (by simp) (by rw [Pool.micros, pmemlogRewind, h.rdonly, if_pos hro])
    · rw [if_neg hro]
      refine answers_ok (by simp) ?_ (.rewind h.durable h.has p.isPmem)
      rw [Pool.micros, pmemlogRewind, h.rdonly, if_neg hro]
  | tell =>
    refine ⟨?_, .nil h.durable h.has⟩
    rw [Pool.result, pmemlogTell, h.writeOffset_eq, Nat.add_sub_cancel_left]
    rfl

end Pool.Represents

theorem Content.call_rdonly (room : Nat) (x : Content) (c : Call) :
    (x.call room c).2.rdonly = x.rdonly := by
  have happend : ∀ buf, (x.append room buf).2.rdonly = x.rdonly := by
    intro buf
    unfold Content.append
    split
    · rfl
    · split
      · rfl
      · rfl
  cases c with
  | append buf => exact happend buf
  | appendv iovcnt iov =>
    rw [Content.call]
    split
    · rfl
    · exact happend _
  | rewind =>
    rw [Content.call]
    split
    · rfl
    · rfl
  | tell => rfl

def State.Represents (poolsize : Nat) : State → Content → Prop
  | .up p, x => p.Represents poolsize x
  | .down poolsize' image, x => poolsize' = poolsize ∧ image.Has poolsize x.bytes

theorem State.Represents.shows {poolsize : Nat} {s : State} {x : Content}
    (h : s.Represents poolsize x) : s.Shows poolsize x := by
  cases s with
  | up p => exact ⟨h.endOffset, h.has.bytes_eq, h.rdonly⟩
  | down poolsize' image => exact ⟨h.1, h.2.bytes_eq, h.2.descrCheck⟩

theorem step_outcome {poolsize : Nat} {e : Event} (he : e.Fits) {s t : State} {x : Content}
    (hs : s.Represents poolsize x) (hstep : step e s = some t) :
    ∃ y, Outcome (poolsize - startOffset) e x y ∧ t.Represents poolsize y := by
  cases s with
  | up p =>
    cases e with
    | call c result =>
      have hcall := hs.call he
      rw [step] at hstep
      split at hstep
      case isFalse => cases hstep
      case isTrue hresult =>
        cases hstep
        refine ⟨_, Prod.ext (hcall.1.symm.trans hresult) rfl, hs.endOffset,
          hcall.2.durable, hcall.2.has, ?_⟩
        exact hs.rdonly.trans (x.call_rdonly _ c).symm
    | crash c steps pick pickOffset =>
      have hcrash := (hs.call he).2.crash steps pick pickOffset
      rw [step, Option.some.injEq] at hstep
      subst hstep
      rcases hcrash with hold | hnew
      · exact ⟨x, .inl rfl, hs.endOffset, hs.endOffset ▸ hold⟩
      · exact ⟨_, .inr rfl, hs.endOffset, hs.endOffset ▸ hnew⟩
    | openCommon isPmem rdonly => cases hstep
  | down poolsize' image =>
    cases e with
    | call c result => cases hstep
    | crash c steps pick pickOffset => cases hstep
    | openCommon isPmem rdonly =>
      rw [step, if_pos (hs.1 ▸ hs.2.descrCheck), Option.some.injEq] at hstep
      subst hstep
      exact ⟨_, rfl, hs.1, ⟨fun _ => rfl, rfl⟩, ⟨hs.2.offset, hs.2.bound, hs.2.byte⟩, rfl⟩

/-- A pool shows the content that the specification computes from the calls, where a call that
was cut by a crash has happened or not. -/
theorem log_run {poolsize : Nat} (hsize : startOffset ≤ poolsize) (isPmem : Bool)
    (data : Nat → UInt8) {es : List Event} (hes : ∀ e ∈ es, e.Fits) {t : State}
    (hrun : Transition.run step es (State.create poolsize isPmem data) = some t) :
    ∃ y, Transition.Traces (Outcome (poolsize - startOffset)) es ⟨[], false⟩ y ∧
      t.Shows poolsize y := by
  have hcreate : (State.create poolsize isPmem data).Represents poolsize ⟨[], false⟩ :=
    ⟨rfl, ⟨fun _ => rfl, rfl⟩, ⟨rfl, hsize, fun i hi => absurd hi (Nat.not_lt_zero i)⟩, rfl⟩
  have hstep : ∀ e ∈ es, ∀ s t x, State.Represents poolsize s x → step e s = some t →
      ∃ y, Outcome (poolsize - startOffset) e x y ∧ State.Represents poolsize t y :=
    fun e he s t x hs hst => step_outcome (hes e he) hs hst
  obtain ⟨y, htraces, hy⟩ := Transition.run_traces hstep hcreate hrun
  exact ⟨y, htraces, hy.shows⟩

def cutEvents : List Event :=
  [.call (.append [1, 2, 3]) .ok, .crash (.appendv 2 [[4], [5]]) 3 (fun _ => 0) 0,
    .openCommon true false, .call .tell (.offset 3),
    .call (.append [6, 7, 8, 9, 10, 11]) (.error .ENOSPC)]

theorem log_run_cutEvents : startOffset ≤ 8200 ∧ (∀ e ∈ cutEvents, e.Fits) ∧
    ∃ t, Transition.run step cutEvents (State.create 8200 true fun _ => 0) = some t ∧
      ∃ y, Transition.Traces (Outcome (8200 - startOffset)) cutEvents ⟨[], false⟩ y ∧
        t.Shows 8200 y := by
  have hes : ∀ e ∈ cutEvents, e.Fits := by
    simp [cutEvents, Event.Fits, Call.Fits]
  have hrun : (Transition.run step cutEvents (State.create 8200 true fun _ => 0)).isSome := by
    decide +kernel
  obtain ⟨t, ht⟩ := Option.isSome_iff_exists.mp hrun
  exact ⟨by decide, hes, t, ht, log_run (by decide) true (fun _ => 0) hes ht⟩

end Pmdk.Log
