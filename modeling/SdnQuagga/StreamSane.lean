import SdnQuagga.StreamRaw

/-!
# What keeps a stream sane

Each function that passes its checks keeps `Sane` exactly if the call is `Orderly`,
and for most functions every call is.
-/

namespace SdnQuagga

open List

namespace RawStream

open FaultM (Yields)

variable {s : RawStream}

/-! ## Arithmetic of `size_t` -/

/-- Room for `n` bytes between two positions. -/
theorem add_of_room {a b : UInt64} {n : Nat} (hn : n < 2 ^ 64) (h : a ≤ b)
    (hrm : UInt64.ofNat n ≤ b - a) :
    a.toNat + n ≤ b.toNat ∧ (a + .ofNat n).toNat = a.toNat + n := by
  rw [UInt64.le_iff_toNat_le, UInt64.toNat_ofNat_of_lt' hn, UInt64.toNat_sub_of_le _ _ h] at hrm
  rw [UInt64.le_iff_toNat_le] at h
  have hlt := b.toNat_lt
  rw [UInt64.toNat_add, UInt64.toNat_ofNat_of_lt' hn]
  omega

theorem length_fetch (data : Nat → UInt8) (pos n : Nat) : (fetch data pos n).length = n := by
  simp [fetch]

/-! ## The bodies -/

/-- After `STREAM_VERIFY_SANE` and a check of the function's own, in the same state. -/
theorem check_yields {α : Type} {c : RawStream → Prop} [∀ s, Decidable (c s)]
    {m : RawStream → RawM α} {Q : α → RawStream → Prop}
    (h : s.getp ≤ s.endp → s.endp ≤ s.size → c s → Yields (· = s) (m s) Q) :
    Yields (· = s) (do verifySane; let s ← get; FaultM.check (c s); m s) Q := by
  have hverify : Yields (· = s) verifySane fun _ s' =>
      (s.getp ≤ s.endp ∧ s.endp ≤ s.size) ∧ s' = s := by
    refine .get_bind fun s' hs' => ?_
    subst hs'
    exact .weaken .check (fun _ hs => hs.1) fun _ _ => id
  refine hverify.bind fun _ => .assume fun hsa => .get_bind fun s' hs' => ?_
  subst hs'
  refine .bind (.weaken .check (fun _ hs => hs.1) fun _ _ => id) fun _ => .assume fun hc => ?_
  exact h hsa.1 hsa.2 hc

variable {bs : List UInt8}

section

variable (h : s.Sane)
include h

theorem store_inside_iff (pos : Nat) (hne : bs ≠ []) :
    (s.store pos bs).overrun = false ↔ pos + bs.length ≤ s.size.toNat := by
  rw [store_overrun, h.inside, Bool.false_or, decide_eq_false_iff_not]
  exact ⟨fun his => Nat.not_lt.mp fun hov => his ⟨hne, hov⟩,
    fun hft hov => absurd hov.2 (Nat.not_lt.mpr hft)⟩

theorem Sane.store {pos : Nat} (hrm : pos + bs.length ≤ s.size.toNat) : (s.store pos bs).Sane := by
  refine ⟨h.getp_le, h.endp_le, ?_⟩
  rw [store_overrun, h.inside, Bool.false_or, decide_eq_false]
  exact fun hov => absurd hov.2 (Nat.not_lt.mpr hrm)

theorem Sane.append (hlen : bs.length < 2 ^ 64)
    (hrm : .ofNat bs.length ≤ s.size - s.endp) : (s.append bs).Sane := by
  obtain ⟨hft, hadd⟩ := add_of_room hlen h.endp_le hrm
  have hstr := h.store hft
  refine ⟨?_, ?_, hstr.inside⟩
  · have hgp := UInt64.le_iff_toNat_le.mp h.getp_le
    rw [UInt64.le_iff_toNat_le]
    show s.getp.toNat ≤ (s.endp + .ofNat bs.length).toNat
    omega
  · rw [UInt64.le_iff_toNat_le]
    show (s.endp + .ofNat bs.length).toNat ≤ s.size.toNat
    omega

theorem getBytes_sane (n : UInt64) : Yields (· = s) (getBytes n) fun _ => Sane := by
  refine check_yields fun _ _ hrd => .bind (.modify fun s' hs' => ?_) fun _ =>
    .pure _ fun _ => id
  subst hs'
  have hn := n.toNat_lt
  rw [UInt64.le_iff_toNat_le, UInt64.toNat_sub_of_le _ _ h.getp_le] at hrd
  have hgp := UInt64.le_iff_toNat_le.mp h.getp_le
  refine ⟨?_, h.endp_le, h.inside⟩
  rw [UInt64.le_iff_toNat_le]
  show (s'.getp + n).toNat ≤ s'.endp.toNat
  have he := s'.endp.toNat_lt
  rw [UInt64.toNat_add]
  omega

theorem getBytesFrom_sane (pos n : UInt64) : Yields (· = s) (getBytesFrom pos n) fun _ => Sane :=
  check_yields fun _ _ _ => .pure _ fun _ hs => hs ▸ h

theorem putBytes_sane (hlen : bs.length < 2 ^ 64) : Yields (· = s) (putBytes bs) fun _ => Sane :=
  check_yields fun _ _ hrm => .modify fun _ hs => hs ▸ h.append hlen hrm

/-- Truncated to what is left, any number of bytes fits. -/
theorem putFetch_sane (data : Nat → UInt8) (size : UInt64) :
    Yields (· = s) (putBytes (fetch data 0 size.toNat)) fun _ => Sane :=
  putBytes_sane h (by rw [length_fetch]; exact size.toNat_lt)

/-! ## The checks that fall short -/

/-- At an offset the sum must not wrap. -/
theorem putBytesAt_sane_iff (putp : UInt64) (hne : bs ≠ []) (hlen : bs.length < 2 ^ 64) :
    Yields (· = s) (putBytesAt putp bs) fun _ s' =>
      s'.Sane ↔ putp.toNat + bs.length < 2 ^ 64 := by
  refine check_yields fun _ hep hck => .modify fun s' hs' => ?_
  subst hs'
  rw [UInt64.le_iff_toNat_le, UInt64.toNat_add, UInt64.toNat_ofNat_of_lt' hlen] at hck
  rw [UInt64.le_iff_toNat_le] at hep
  constructor
  · intro hsa
    have hft := (store_inside_iff h putp.toNat hne).mp hsa.inside
    exact Nat.lt_of_le_of_lt hft s'.size.toNat_lt
  · intro hsu
    refine h.store ?_
    rw [Nat.mod_eq_of_lt hsu] at hck
    omega

/-- The length needs a byte of its own. -/
theorem putPrefix_sane_iff (prefixlen : UInt8) (u : Nat → UInt8) :
    Yields (· = s) (putPrefix prefixlen u) fun _ s' =>
      s'.Sane ↔ psize prefixlen.toNat < (s.size - s.endp).toNat := by
  have hsm : psize prefixlen.toNat < 2 ^ 64 := by
    have := prefixlen.toNat_lt
    rw [psize]
    omega
  have hlen := length_fetch u 0 (psize prefixlen.toNat)
  have hputc : Yields (· = s) (putc prefixlen) fun _ s' =>
      s' = s.append [prefixlen] ∧ (s.append [prefixlen]).Sane :=
    check_yields fun _ _ h1 => .modify fun s' hs' => by
      subst hs'
      exact ⟨rfl, h.append (Nat.lt_of_sub_eq_succ rfl) h1⟩
  refine check_yields fun _ _ _ => hputc.bind fun _ => .bind (.modify fun s' hs' => ?_)
    fun _ => .pure _ fun _ => id
  obtain ⟨rfl, h1⟩ := hs'
  have hft : s.endp.toNat + 1 ≤ s.size.toNat :=
    (store_inside_iff h _ (cons_ne_nil _ _)).mp h1.inside
  have hsize := s.size.toNat_lt
  have he : (s.append [prefixlen]).endp.toNat = s.endp.toNat + 1 := by
    show (s.endp + 1).toNat = _
    rw [UInt64.toNat_add, UInt64.toNat_one]
    exact Nat.mod_eq_of_lt (by omega)
  rw [UInt64.toNat_sub_of_le _ _ h.endp_le]
  constructor
  · intro hsa
    rcases Nat.eq_zero_or_pos (psize prefixlen.toNat) with hz | hp
    · omega
    · have hne : fetch u 0 (psize prefixlen.toNat) ≠ [] :=
        ne_nil_of_length_pos (by rwa [hlen])
      have hov := (store_inside_iff h1 _ hne).mp hsa.inside
      rw [he, hlen] at hov
      show _ < s.size.toNat - _
      have : (s.append [prefixlen]).size = s.size := rfl
      rw [this] at hov
      omega
  · intro hrm
    refine h1.append (by rwa [hlen]) ?_
    rw [UInt64.le_iff_toNat_le, hlen, UInt64.toNat_ofNat_of_lt' hsm,
      UInt64.toNat_sub_of_le _ _ h1.endp_le, he]
    show _ ≤ s.size.toNat - _
    omega

/-- `endp` must not pass below `getp`. -/
theorem setEndp_sane_iff (pos : UInt64) :
    Yields (· = s) (setEndp pos) fun _ s' => s'.Sane ↔ s.getp ≤ pos := by
  refine check_yields fun _ hep hp => .modify fun s' hs' => ?_
  subst hs'
  exact ⟨fun hsa => hsa.getp_le, fun hgp => ⟨hgp, UInt64.le_trans hp hep, h.inside⟩⟩

theorem forwardEndp_sane_iff (size : UInt64) :
    Yields (· = s) (forwardEndp size) fun _ s' => s'.Sane ↔ s.getp ≤ s.endp + size := by
  refine check_yields fun _ _ hck => .modify fun s' hs' => ?_
  subst hs'
  exact ⟨fun hsa => hsa.getp_le, fun hgp => ⟨hgp, hck, h.inside⟩⟩

/-! ## The other positions -/

theorem setGetp_sane (pos : UInt64) : Yields (· = s) (setGetp pos) fun _ => Sane := by
  refine check_yields fun _ _ hp => .modify fun s' hs' => ?_
  subst hs'
  exact ⟨hp, h.endp_le, h.inside⟩

/-- A sum that wraps moves `getp` back, which does no harm. -/
theorem forwardGetp_sane (size : UInt64) : Yields (· = s) (forwardGetp size) fun _ => Sane := by
  refine check_yields fun _ _ hck => .modify fun s' hs' => ?_
  subst hs'
  exact ⟨hck, h.endp_le, h.inside⟩

end

theorem verifySane_keeps {P : RawStream → Prop} : Yields P verifySane fun _ => P :=
  .get_bind fun _ _ => .weaken .check (fun _ hs => hs.2) fun _ _ hs => hs.2

theorem resize_sane (h : s.Sane) (newsize : UInt64) :
    Yields (· = s) (resize newsize) fun _ => Sane := by
  refine .bind verifySane_keeps fun _ => .bind (.modify fun s' hs' => ?_) fun _ =>
    verifySane_keeps
  subst hs'
  have hcut : ∀ a b : UInt64, (if a > b then b else a) ≤ b := by
    intro a b
    split
    · exact UInt64.le_refl _
    · exact UInt64.not_lt.mp ‹_›
  exact ⟨hcut _ _, hcut _ _, h.inside⟩

theorem reset_sane (h : s.Sane) : Yields (· = s) reset fun _ => Sane := by
  refine .bind verifySane_keeps fun _ => .modify fun s' hs' => ?_
  subst hs'
  exact ⟨UInt64.le_refl _, UInt64.zero_le, h.inside⟩

theorem copy_sane (h : s.Sane) (src : RawStream) : Yields (· = s) (copy src) fun _ => Sane := by
  refine .bind .check fun _ => .assume fun hsrc => .get_bind fun s' hs' => ?_
  subst hs'
  refine .bind (.weaken .check (fun _ hs => hs.1) fun _ _ => id) fun _ => .assume fun hft =>
    .modify fun s'' hs'' => ?_
  subst hs''
  have hsa : Sane { s'' with endp := src.endp, getp := src.getp } := ⟨hsrc.1, hft, h.inside⟩
  refine hsa.store ?_
  rw [length_fetch, Nat.zero_add]
  exact UInt64.le_iff_toNat_le.mp hft

end RawStream

/-! ## Sequences of operations -/

open RawStream FaultM

/-- The operations with their arguments. -/
inductive StreamOp where
  | get (size : UInt64)
  | getc | getw | getl | getq | getIpv4
  | getcFrom (pos : UInt64) | getwFrom (pos : UInt64)
  | getlFrom (pos : UInt64) | getqFrom (pos : UInt64)
  | putc (c : UInt8) | putw (w : UInt16) | putl (l : UInt32) | putq (q : UInt64)
  | putIpv4 (l : UInt32) | putInAddr (addr : UInt32)
  | put (src : Option (Nat → UInt8)) (size : UInt64)
  | write (ptr : Nat → UInt8) (size : UInt64)
  | putcAt (putp : UInt64) (c : UInt8) | putwAt (putp : UInt64) (w : UInt16)
  | putlAt (putp : UInt64) (l : UInt32) | putqAt (putp : UInt64) (q : UInt64)
  | putPrefix (prefixlen : UInt8) (u : Nat → UInt8)
  | setGetp (pos : UInt64) | setEndp (pos : UInt64)
  | forwardGetp (size : UInt64) | forwardEndp (size : UInt64)
  | resize (newsize : UInt64)
  | reset
  | copy (src : RawStream)

namespace StreamOp

def run : StreamOp → RawM Unit
  | get size => discard (getBytes size)
  | getc => discard RawStream.getc
  | getw => discard RawStream.getw
  | getl => discard RawStream.getl
  | getq => discard RawStream.getq
  | getIpv4 => discard RawStream.getIpv4
  | getcFrom pos => discard (RawStream.getcFrom pos)
  | getwFrom pos => discard (RawStream.getwFrom pos)
  | getlFrom pos => discard (RawStream.getlFrom pos)
  | getqFrom pos => discard (RawStream.getqFrom pos)
  | putc c => RawStream.putc c
  | putw w => RawStream.putw w
  | putl l => RawStream.putl l
  | putq q => RawStream.putq q
  | putIpv4 l => RawStream.putIpv4 l
  | putInAddr addr => RawStream.putInAddr addr
  | put src size => RawStream.put src size
  | write ptr size => discard (RawStream.write ptr size)
  | putcAt putp c => RawStream.putcAt putp c
  | putwAt putp w => RawStream.putwAt putp w
  | putlAt putp l => RawStream.putlAt putp l
  | putqAt putp q => RawStream.putqAt putp q
  | putPrefix prefixlen u => discard (RawStream.putPrefix prefixlen u)
  | setGetp pos => RawStream.setGetp pos
  | setEndp pos => RawStream.setEndp pos
  | forwardGetp size => RawStream.forwardGetp size
  | forwardEndp size => RawStream.forwardEndp size
  | resize newsize => RawStream.resize newsize
  | reset => RawStream.reset
  | copy src => RawStream.copy src

/-- What the function leaves to its caller. -/
def Orderly (s : RawStream) : StreamOp → Prop
  | putcAt putp _ => putp.toNat + 1 < 2 ^ 64
  | putwAt putp _ => putp.toNat + 2 < 2 ^ 64
  | putlAt putp _ => putp.toNat + 4 < 2 ^ 64
  | putqAt putp _ => putp.toNat + 8 < 2 ^ 64
  | putPrefix prefixlen _ => psize prefixlen.toNat < (s.size - s.endp).toNat
  | setEndp pos => s.getp ≤ pos
  | forwardEndp size => s.getp ≤ s.endp + size
  | _ => True

end StreamOp

theorem yields_discard {α : Type} {P Q : RawStream → Prop} {m : RawM α}
    (h : Yields P m fun _ => Q) : Yields P (discard m) fun _ => Q :=
  h.bind fun _ => .pure _ fun _ => id

variable {s : RawStream}

theorem yields_always {m : RawM Unit} (h : Yields (· = s) m fun _ => Sane) :
    Yields (· = s) m fun _ s' => s'.Sane ↔ True :=
  h.weaken (fun _ => id) fun _ _ hs => iff_true_intro hs

theorem putWordAt_sane_iff (h : s.Sane) (putp : UInt64) (w n : Nat) (hw : w + 1 < 2 ^ 64) :
    Yields (· = s) (putBytesAt putp (toBE (w + 1) n)) fun _ s' =>
      s'.Sane ↔ putp.toNat + (w + 1) < 2 ^ 64 := by
  have hlen := toBE_length (w + 1) n
  have hiff : Yields (· = s) (putBytesAt putp (toBE (w + 1) n)) fun _ s' =>
      s'.Sane ↔ putp.toNat + (toBE (w + 1) n).length < 2 ^ 64 :=
    putBytesAt_sane_iff h putp (ne_nil_of_length_pos (by omega)) (by omega)
  rwa [hlen] at hiff

/-- One operation that passes its own checks. -/
theorem StreamOp.run_sane_iff (h : s.Sane) (op : StreamOp) :
    Yields (· = s) op.run fun _ s' => s'.Sane ↔ op.Orderly s := by
  have hge {α : Type} (n : UInt64) (f : List UInt8 → α) :
      Yields (· = s) (discard do return f (← getBytes n)) fun _ s' => s'.Sane ↔ True :=
    yields_always (yields_discard ((getBytes_sane h n).bind fun _ => .pure _ fun _ => id))
  have hfrom {α : Type} (pos n : UInt64) (f : List UInt8 → α) :
      Yields (· = s) (discard do return f (← getBytesFrom pos n))
        fun _ s' => s'.Sane ↔ True :=
    yields_always (yields_discard ((getBytesFrom_sane h pos n).bind fun _ =>
      .pure _ fun _ => id))
  cases op with
  | get size => exact yields_always (yields_discard (getBytes_sane h size))
  | getc | getw | getl | getq | getIpv4 => exact hge _ _
  | getcFrom pos | getwFrom pos | getlFrom pos | getqFrom pos => exact hfrom _ _ _
  | putc c => exact yields_always (putBytes_sane h (by simp))
  | putw w | putl w | putq w | putIpv4 w | putInAddr w =>
    exact yields_always (putBytes_sane h (by rw [toBE_length]; decide))
  | put src size =>
    refine yields_always (.get_bind fun s' hs' => ?_)
    subst hs'
    exact (putFetch_sane h _ _).weaken (fun _ hs => hs.1) fun _ _ => id
  | write ptr size =>
    refine yields_always (yields_discard (.get_bind fun s' hs' => ?_))
    subst hs'
    exact ((putFetch_sane h _ _).bind fun _ => .pure _ fun _ => id).weaken
      (fun _ hs => hs.1) fun _ _ => id
  | putcAt putp c => exact putBytesAt_sane_iff h putp (cons_ne_nil _ _) (by simp)
  | putwAt putp w => exact putWordAt_sane_iff h putp 1 _ (by decide)
  | putlAt putp l => exact putWordAt_sane_iff h putp 3 _ (by decide)
  | putqAt putp q => exact putWordAt_sane_iff h putp 7 _ (by decide)
  | putPrefix prefixlen u =>
    exact (putPrefix_sane_iff h prefixlen u).bind fun _ => .pure _ fun _ => id
  | setGetp pos => exact yields_always (setGetp_sane h pos)
  | setEndp pos => exact setEndp_sane_iff h pos
  | forwardGetp size => exact yields_always (forwardGetp_sane h size)
  | forwardEndp size => exact forwardEndp_sane_iff h size
  | resize newsize => exact yields_always (resize_sane h newsize)
  | reset => exact yields_always (reset_sane h)
  | copy src => exact yields_always (copy_sane h src)

/-- Sequences of operations that pass their checks, each with `C` when it is called. -/
inductive StreamRuns (C : RawStream → StreamOp → Prop) : RawStream → RawStream → Prop where
  | refl (s : RawStream) : StreamRuns C s s
  | step {s s1 s2 : RawStream} (op : StreamOp) : StreamRuns C s s1 → C s1 op →
      op.run s1 = .ok ((), s2) → StreamRuns C s s2

/-- From a sane stream, an operation that passes its own checks leaves a sane stream
exactly if the call is orderly, and so does every sequence of orderly calls. -/
theorem stream_sane_iff_orderly {s : RawStream} (h : s.Sane) :
    (∀ (op : StreamOp) s', op.run s = .ok ((), s') → (s'.Sane ↔ op.Orderly s)) ∧
      ∀ s', StreamRuns (fun s op => op.Orderly s) s s' → s'.Sane := by
  refine ⟨fun op s' hrun => op.run_sane_iff h s () s' rfl hrun, fun s' hruns => ?_⟩
  induction hruns with
  | refl => exact h
  | step op _ horderly hrun ih => exact (op.run_sane_iff ih _ () _ rfl hrun).mpr horderly

/-- An empty buffer of some size. -/
def RawStream.new (size : UInt64) : RawStream where
  data _ := 0
  size := size
  getp := 0
  endp := 0
  overrun := false

theorem RawStream.new_sane (size : UInt64) : (RawStream.new size).Sane :=
  ⟨UInt64.le_refl _, UInt64.zero_le, rfl⟩

theorem stream_sane_iff_orderly_put :
    (RawStream.new 4).Sane ∧ ∃ s', (StreamOp.putPrefix 24 fun _ => 10).run
      (RawStream.new 4) = .ok ((), s') ∧ s'.Sane :=
  ⟨new_sane 4, _, rfl,
    ((stream_sane_iff_orderly (new_sane 4)).1 (.putPrefix 24 fun _ => 10) _ rfl).mpr
      (Nat.lt_of_sub_eq_succ rfl)⟩

/-- A prefix of three bytes passes the check in a buffer of three, and its last byte is
written behind it. `stream_set_endp` passes a position below `getp`. -/
theorem stream_checks_fall_short :
    (∃ s', (StreamOp.putPrefix 24 fun _ => 10).run (RawStream.new 3) = .ok ((), s') ∧
      s'.endp = 4 ∧ s'.overrun = true) ∧
    ∃ s s', s.Sane ∧ (StreamOp.setEndp 1).run s = .ok ((), s') ∧ ¬ s'.getp ≤ s'.endp := by
  refine ⟨⟨_, rfl, rfl, rfl⟩,
    { RawStream.new 4 with getp := 2, endp := 3 }, _, ⟨?_, ?_, rfl⟩, rfl, ?_⟩ <;> decide

end SdnQuagga
