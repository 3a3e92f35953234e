import CS352.Model.FileLog

/-! # Buffers

What the calls of the buffer cache do to the disk and to the contents that the next `bread`
of a block returns, and who counts in `refcnt`. -/

namespace CS352.FileLog

variable {s : Store} {log : Log} {pins : ℕ → ℕ} {p b c tail : ℕ} {data : Block}

/-- What `bread` returns for the block. -/
def content (s : Store) (b : ℕ) : Block :=
  if (s.buf b).valid then (s.buf b).data else s.disk b

/-- `refcnt` counts the process that holds the buffer and the pins, and a buffer that is
held is valid. -/
structure Handled (s : Store) (pins : ℕ → ℕ) : Prop where
  refs : ∀ b, (s.buf b).refcnt = (if (s.buf b).lock = none then 0 else 1) + pins b
  held : ∀ b, (s.buf b).lock ≠ none → (s.buf b).valid = true

/-! ## Single calls -/

section Calls

variable (s : Store) (p b c : ℕ) (data : Block)

@[simp] theorem setBuf_buf (buf : Buf) :
    (s.setBuf b buf).buf = Function.update s.buf b buf := rfl
@[simp] theorem setBuf_disk (buf : Buf) : (s.setBuf b buf).disk = s.disk := rfl
@[simp] theorem bread_disk : (bread s p b).disk = s.disk := rfl
@[simp] theorem brelse_disk : (brelse s b).disk = s.disk := rfl
@[simp] theorem bunpin_disk : (bunpin s b).disk = s.disk := rfl
@[simp] theorem setData_disk : (s.setData b data).disk = s.disk := rfl
@[simp] theorem bwrite_buf : (bwrite s b).buf = s.buf := rfl

@[simp] theorem bread_lock :
    ((bread s p b).buf c).lock = if c = b then some p else (s.buf c).lock := by
  by_cases hc : c = b <;> simp [bread, hc]

@[simp] theorem brelse_lock :
    ((brelse s b).buf c).lock = if c = b then none else (s.buf c).lock := by
  by_cases hc : c = b <;> simp [brelse, hc]

@[simp] theorem setData_lock : ((s.setData b data).buf c).lock = (s.buf c).lock := by
  by_cases hc : c = b <;> simp [Store.setData, hc]

@[simp] theorem bunpin_lock : ((bunpin s b).buf c).lock = (s.buf c).lock := by
  by_cases hc : c = b <;> simp [bunpin, hc]

@[simp] theorem content_bread : content (bread s p b) = content s := by
  funext c
  by_cases hc : c = b <;> simp [content, bread, hc]

@[simp] theorem content_brelse : content (brelse s b) = content s := by
  funext c
  by_cases hc : c = b <;> simp [content, brelse, hc]

@[simp] theorem content_bpin : content (bpin s b) = content s := by
  funext c
  by_cases hc : c = b <;> simp [content, bpin, hc]

@[simp] theorem content_bunpin : content (bunpin s b) = content s := by
  funext c
  by_cases hc : c = b <;> simp [content, bunpin, hc]

theorem content_recycle : content (recycle s b) = Function.update (content s) b (s.disk b) := by
  funext c
  by_cases hc : c = b <;> simp [content, recycle, hc]

end Calls

theorem content_of_valid (h : (s.buf b).valid = true) : content s b = (s.buf b).data := if_pos h

theorem content_setData (h : (s.buf b).valid = true) :
    content (s.setData b data) = Function.update (content s) b data := by
  funext c
  by_cases hc : c = b
  · simp [content, Store.setData, hc, h]
  · simp [content, Store.setData, hc]

theorem content_bwrite (h : (s.buf b).valid = true) : content (bwrite s b) = content s := by
  funext c
  by_cases hc : c = b
  · simp [content, hc, h]
  · simp [content, bwrite, hc]

theorem bwrite_disk (h : (s.buf b).valid = true) :
    (bwrite s b).disk = Function.update s.disk b (content s b) := by
  rw [content_of_valid h]
  rfl

/-- One buffer changes, and what is pinned of its block. -/
theorem Handled.setBuf {buf : Buf} {pins' : ℕ → ℕ} (h : Handled s pins)
    (hrefs : buf.refcnt = (if buf.lock = none then 0 else 1) + pins' b)
    (hheld : buf.lock ≠ none → buf.valid = true) (hpins : ∀ c, c ≠ b → pins' c = pins c) :
    Handled (s.setBuf b buf) pins' := by
  refine ⟨fun c => ?_, fun c => ?_⟩ <;> by_cases hc : c = b
  · simpa [hc] using hrefs
  · simpa [hc, hpins] using h.refs c
  · simpa [hc] using hheld
  · simpa [hc] using h.held c

theorem Handled.bread (h : Handled s pins) (hb : (s.buf b).lock = none) :
    Handled (bread s p b) pins :=
  h.setBuf (by simp [h.refs b, hb, Nat.add_comm]) (by simp) fun _ _ => rfl

theorem Handled.brelse (h : Handled s pins) (hb : (s.buf b).lock ≠ none) :
    Handled (brelse s b) pins :=
  h.setBuf (by simp [h.refs b, hb]) (by simp) fun _ _ => rfl

theorem Handled.setData (h : Handled s pins) : Handled (s.setData b data) pins :=
  h.setBuf (h.refs b) (h.held b) fun _ _ => rfl

theorem Handled.bwrite (h : Handled s pins) : Handled (bwrite s b) pins := ⟨h.refs, h.held⟩

theorem Handled.bpin (h : Handled s pins) :
    Handled (bpin s b) (Function.update pins b (pins b + 1)) :=
  h.setBuf (by simp [h.refs b, Nat.add_assoc]) (h.held b) fun c hc => by simp [hc]

theorem Handled.bunpin (h : Handled s pins) (hb : 0 < pins b) :
    Handled (bunpin s b) (Function.update pins b (pins b - 1)) := by
  refine h.setBuf ?_ (h.held b) fun c hc => by simp [hc]
  dsimp only
  rw [h.refs b, Function.update_self]
  omega

/-- Only a buffer that nobody holds and that is not pinned is recycled. -/
theorem Handled.recycle (h : Handled s pins) (hb : (s.buf b).refcnt = 0) :
    Handled (recycle s b) pins := by
  refine h.setBuf (h.refs b) (fun hlock => ?_) fun _ _ => rfl
  have hrefs := h.refs b
  rw [hb, if_neg hlock] at hrefs
  omega

theorem Handled.pins_eq_zero (h : Handled s pins) (hb : (s.buf b).refcnt = 0) : pins b = 0 := by
  have := h.refs b
  omega

/-! ## The bodies of the loops -/

/-- A block is written to the disk, through its buffer. -/
structure Written (s s' : Store) (b : ℕ) (data : Block) (pins : ℕ → ℕ) : Prop where
  disk : s'.disk = Function.update s.disk b data
  content : content s' = Function.update (content s) b data
  lock : ∀ c, (s'.buf c).lock = (s.buf c).lock
  handled : Handled s' pins

/-- `memmove` to a buffer that is held, then `bwrite`. -/
theorem setData_bwrite_written (data : Block) (h : Handled s pins)
    (hb : (s.buf b).lock ≠ none) :
    Written s (bwrite (s.setData b data) b) b data pins := by
  have hvalid := h.held b hb
  have hvalid' : ((s.setData b data).buf b).valid = true := by simpa [Store.setData] using hvalid
  refine ⟨?_, ?_, by simp, h.setData.bwrite⟩
  · rw [bwrite_disk hvalid', content_setData hvalid]
    simp
  · rw [content_bwrite hvalid', content_setData hvalid]

theorem bread_data (h : Handled s pins) (hb : (s.buf b).lock = none) :
    ((bread s p b).buf b).data = content s b := by
  rw [← content_of_valid ((h.bread hb).held b (by simp)), content_bread]

theorem writeHead_written (h : Handled s pins) (hstart : (s.buf log.start).lock = none) :
    Written s (writeHead s log p) log.start (withHead (content s log.start) log.lh) pins := by
  have hread := h.bread (p := p) hstart
  have hdata := bread_data (p := p) h hstart
  have hw := setData_bwrite_written (b := log.start) (withHead (content s log.start) log.lh) hread
    (by simp)
  simp only [writeHead, hdata]
  refine ⟨?_, ?_, ?_, hw.handled.brelse (by simp)⟩
  · simpa using hw.disk
  · simpa using hw.content
  · intro c
    by_cases hc : c = log.start <;> simp [hc, hstart]

theorem readHead_spec (h : Handled s pins) (hstart : (s.buf log.start).lock = none) :
    (readHead s log p).1 = headOf (content s log.start) log.lh ∧
      (readHead s log p).2.disk = s.disk ∧ content (readHead s log p).2 = content s ∧
      (∀ c, ((readHead s log p).2.buf c).lock = (s.buf c).lock) ∧
      Handled (readHead s log p).2 pins := by
  have hread := h.bread (p := p) hstart
  have hdata := bread_data (p := p) h hstart
  refine ⟨?_, rfl, ?_, ?_, hread.brelse (by simp)⟩
  · simp only [readHead, hdata]
  · simp [readHead]
  · intro c
    by_cases hc : c = log.start <;> simp [readHead, hc, hstart]

/-- `bread` of two blocks. -/
theorem bread_bread_spec {src dst : ℕ} (h : Handled s pins) (hsrc : (s.buf src).lock = none)
    (hdst : (s.buf dst).lock = none) (hne : src ≠ dst) :
    ((bread (bread s p src) p dst).buf src).data = content s src ∧
      ((bread (bread s p src) p dst).buf dst).data = content s dst ∧
      Handled (bread (bread s p src) p dst) pins := by
  have h₁ := h.bread (p := p) hsrc
  have h₂ : Handled (bread (bread s p src) p dst) pins :=
    h₁.bread (by simpa [hne.symm] using hdst)
  refine ⟨?_, ?_, h₂⟩
  · rw [← content_of_valid (h₂.held src (by simp [hne]))]
    simp
  · rw [← content_of_valid (h₂.held dst (by simp))]
    simp

theorem writeLog_written (h : Handled s pins)
    (hto : (s.buf (log.start + tail + 1)).lock = none)
    (hsrc : (s.buf (log.lh.block tail)).lock = none)
    (hne : log.lh.block tail ≠ log.start + tail + 1) :
    Written s (writeLog s log p tail) (log.start + tail + 1) (content s (log.lh.block tail))
      pins := by
  obtain ⟨-, hdata, hread⟩ := bread_bread_spec (p := p) h hto hsrc hne.symm
  have hw := setData_bwrite_written (b := log.start + tail + 1) (content s (log.lh.block tail))
    hread (by simp [hne.symm])
  simp only [writeLog, hdata]
  have hrel := hw.handled.brelse (b := log.lh.block tail) (by simp)
  refine ⟨?_, ?_, ?_, hrel.brelse (by simp [hne.symm])⟩
  · simpa using hw.disk
  · simpa using hw.content
  · intro c
    by_cases hto' : c = log.start + tail + 1
    · simp [hto', hto]
    · by_cases hsrc' : c = log.lh.block tail <;> simp [hto', hsrc', hsrc]

/-- A pass of `install_trans`. In `commit` it unpins the block. -/
theorem installTrans_written (recovering : Bool) (h : Handled s pins)
    (hlbuf : (s.buf (log.start + tail + 1)).lock = none)
    (hdbuf : (s.buf (log.lh.block tail)).lock = none)
    (hne : log.lh.block tail ≠ log.start + tail + 1)
    (hpin : recovering = false → 0 < pins (log.lh.block tail)) :
    Written s (installTrans s log p tail recovering) (log.lh.block tail)
      (content s (log.start + tail + 1)) (if recovering then pins else
        Function.update pins (log.lh.block tail) (pins (log.lh.block tail) - 1)) := by
  obtain ⟨hdata, -, hread⟩ := bread_bread_spec (p := p) h hlbuf hdbuf hne.symm
  have hw := setData_bwrite_written (b := log.lh.block tail) (content s (log.start + tail + 1))
    hread (by simp)
  have hlock : ∀ c, (if c = log.lh.block tail then none else if c = log.start + tail + 1 then none
      else if c = log.lh.block tail then some p else if c = log.start + tail + 1 then some p else
        (s.buf c).lock) = (s.buf c).lock := by
    intro c
    by_cases hdst : c = log.lh.block tail
    · simp [hdst, hdbuf]
    · by_cases hsrc : c = log.start + tail + 1 <;> simp [hdst, hsrc, hlbuf]
  simp only [installTrans, hdata]
  cases recovering with
  | true =>
    have hrel := hw.handled.brelse (b := log.start + tail + 1) (by simp [hne.symm])
    refine ⟨by simpa using hw.disk, by simpa using hw.content, fun c => ?_,
      hrel.brelse (by simp [hne])⟩
    simpa using hlock c
  | false =>
    have hunpin := hw.handled.bunpin (hpin rfl)
    have hrel := hunpin.brelse (b := log.start + tail + 1) (by simp [hne.symm])
    refine ⟨by simpa using hw.disk, by simpa using hw.content, fun c => ?_,
      hrel.brelse (by simp [hne])⟩
    simpa using hlock c

end CS352.FileLog
