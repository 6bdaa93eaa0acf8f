import Movy.Fuzz.MutableValue

/-!
# Both views of a value

On integers and vectors of integers, `sync` and `commit` are inverse to each
other, whatever bytes are read back.
-/

namespace Movy.Fuzz

open Movy.Types Movy.Store

def number : InputArgument → Option (ℕ × ℕ)
  | .u8 v => some (1, v)
  | .u16 v => some (2, v)
  | .u32 v => some (4, v)
  | .u64 v => some (8, v)
  | .u128 v => some (16, v)
  | .u256 v => some (32, v)
  | _ => none

/-- An integer, or a vector of integers of the type that its tag says. -/
def IntegerData : InputArgument → Prop
  | .vector t vs => ∀ v ∈ vs, (number v).isSome = true ∧ InputArgument.typeTag v = t
  | v => (number v).isSome = true

/-- The same variant, and for vectors the same element type and length. -/
def SameShape : InputArgument → InputArgument → Prop
  | .vector t vs, .vector t' vs' => t' = t ∧ vs'.length = vs.length
  | .vector _ _, _ => False
  | _, .vector _ _ => False
  | v, v' => InputArgument.typeTag v' = InputArgument.typeTag v ∧
      (number v').map Prod.fst = (number v).map Prod.fst

theorem sync_number (v : InputArgument) (n k : ℕ) (h : number v = some (n, k)) :
    sync v = some (leBytes n k) ∧ k < 256 ^ n := by
  rw [pow_256]
  cases v with
  | u8 x | u16 x | u32 x | u64 x | u128 x | u256 x =>
    cases h
    exact ⟨rfl, x.isLt⟩
  | vector t vs | bool | signer | address | object => cases h

theorem chunkSize_number (v : InputArgument) (n k : ℕ) (h : number v = some (n, k)) :
    chunkSize (InputArgument.typeTag v) = some n := by
  cases v <;> cases h <;> rfl

theorem commit_number (bytes : List Byte) (v : InputArgument) (n k : ℕ)
    (h : number v = some (n, k)) (hlen : bytes.length = n) :
    ∃ w, commit bytes v = some w ∧ number w = some (n, fromLeBytes bytes) ∧
      InputArgument.typeTag w = InputArgument.typeTag v := by
  have hlt := fromLeBytes_lt bytes
  rw [hlen, pow_256] at hlt
  cases v with
  | u8 x | u16 x | u32 x | u64 x | u128 x | u256 x =>
    cases h
    simp only [commit, readLe, if_pos hlen, Option.map_some, Option.some.injEq, exists_eq_left']
    exact ⟨congrArg (fun m => some (_, m)) (Nat.mod_eq_of_lt hlt), rfl⟩
  | vector t vs | bool | signer | address | object => cases h

theorem eq_of_number (v w : InputArgument) (n k : ℕ) (hv : number v = some (n, k))
    (hw : number w = some (n, k)) : v = w := by
  cases v <;> cases hv <;> cases w <;> simp_all [number, Fin.ext_iff]

theorem sync_isSome (v : InputArgument) (h : (number v).isSome = true) :
    ∃ bytes, sync v = some bytes ∧ chunkSize (InputArgument.typeTag v) = some bytes.length := by
  obtain ⟨⟨n, k⟩, hnk⟩ := Option.isSome_iff_exists.mp h
  exact ⟨leBytes n k, (sync_number v n k hnk).1, by
    rw [length_leBytes, chunkSize_number v n k hnk]⟩

/-- Another value of the type is read from other bytes. -/
theorem commit_sync (v : InputArgument) (bytes : List Byte) (h : (number v).isSome = true)
    (hlen : chunkSize (InputArgument.typeTag v) = some bytes.length) :
    ∃ w, commit bytes v = some w ∧ sync w = some bytes ∧ (number w).isSome = true ∧
      InputArgument.typeTag w = InputArgument.typeTag v := by
  obtain ⟨⟨n, k⟩, hnk⟩ := Option.isSome_iff_exists.mp h
  have hn : n = bytes.length :=
    Option.some.inj ((chunkSize_number v n k hnk).symm.trans hlen)
  obtain ⟨w, hcommit, hw, htag⟩ := commit_number bytes v n k hnk hn.symm
  refine ⟨w, hcommit, ?_, by rw [hw]; rfl, htag⟩
  rw [(sync_number w n _ hw).1, hn, leBytes_fromLeBytes]

theorem sync_injective (v w : InputArgument) (hv : (number v).isSome = true)
    (hw : (number w).isSome = true) (htag : InputArgument.typeTag w = InputArgument.typeTag v)
    (h : sync v = sync w) : v = w := by
  obtain ⟨⟨n, k⟩, hnk⟩ := Option.isSome_iff_exists.mp hv
  obtain ⟨⟨m, l⟩, hml⟩ := Option.isSome_iff_exists.mp hw
  have hnm := chunkSize_number w m l hml
  rw [htag, chunkSize_number v n k hnk, Option.some.injEq] at hnm
  subst hnm
  obtain ⟨hsv, hk⟩ := sync_number v n k hnk
  obtain ⟨hsw, hl⟩ := sync_number w n l hml
  rw [hsv, hsw, Option.some.injEq] at h
  have hkl := congrArg fromLeBytes h
  rw [fromLeBytes_leBytes n k hk, fromLeBytes_leBytes n l hl] at hkl
  subst hkl
  exact eq_of_number v w n k hnk hml

/-! ### Vectors -/

section

variable (t : MoveTypeTag)

def Elements (vs : List InputArgument) : Prop :=
  ∀ v ∈ vs, (number v).isSome = true ∧ InputArgument.typeTag v = t

theorem Elements.cons {v : InputArgument} {vs : List InputArgument} (h : Elements t (v :: vs)) :
    ((number v).isSome = true ∧ InputArgument.typeTag v = t) ∧ Elements t vs :=
  ⟨h v (List.mem_cons_self ..), fun x hx => h x (List.mem_cons_of_mem _ hx)⟩

theorem syncElements_isSome (n : ℕ) (hsize : chunkSize t = some n) (vs : List InputArgument)
    (hvs : Elements t vs) : ∃ bytes, syncElements vs = some bytes ∧ bytes.length = vs.length * n := by
  induction vs with
  | nil => exact ⟨[], rfl, (Nat.zero_mul n).symm⟩
  | cons v vs ih =>
    obtain ⟨⟨hv, htag⟩, hrest⟩ := hvs.cons
    obtain ⟨bytes, hsync, hchunk⟩ := sync_isSome v hv
    obtain ⟨rest, hsyncs, hlen⟩ := ih hrest
    rw [htag, hsize, Option.some.injEq] at hchunk
    refine ⟨bytes ++ rest, by rw [syncElements, hsync, hsyncs]; rfl, ?_⟩
    rw [List.length_append, hlen, List.length_cons, Nat.add_mul, Nat.one_mul, hchunk, Nat.add_comm]

/-- What is read from the rest of the bytes is written out as these bytes. -/
theorem commitElements_sync (n : ℕ) (hsize : chunkSize t = some n) (bytes : List Byte) (i : ℕ)
    (vs : List InputArgument) (hvs : Elements t vs) (hlen : (i + vs.length) * n = bytes.length) :
    ∃ ws, commitElements bytes t i vs = some ws ∧ ws.length = vs.length ∧ Elements t ws ∧
      syncElements ws = some (bytes.drop (i * n)) := by
  induction vs generalizing i with
  | nil =>
    have hdrop : bytes.drop (i * n) = [] := by
      rw [List.drop_eq_nil_iff, ← hlen, List.length_nil, Nat.add_zero]
    exact ⟨[], rfl, rfl, fun w hw => absurd hw List.not_mem_nil, by rw [hdrop]; rfl⟩
  | cons v vs ih =>
    obtain ⟨⟨hv, htag⟩, hrest⟩ := hvs.cons
    rw [List.length_cons] at hlen
    have hle : i * n + n ≤ bytes.length := by
      rw [← hlen, ← Nat.succ_mul]
      exact Nat.mul_le_mul_right n (by omega)
    have hchunk : slice bytes (i * n) (i * n + n) = some ((bytes.drop (i * n)).take n) := by
      rw [slice, if_pos ⟨Nat.le_add_right _ _, hle⟩, List.drop_take, Nat.add_sub_cancel_left]
    have hchunkLen : ((bytes.drop (i * n)).take n).length = n := by
      rw [List.length_take, List.length_drop]
      omega
    obtain ⟨w, hcommit, hsync, hw, hwtag⟩ := commit_sync v ((bytes.drop (i * n)).take n) hv
      (by rw [htag, hsize, hchunkLen])
    obtain ⟨ws, hcommits, hwslen, hws, hsyncs⟩ := ih (i + 1) hrest
      (by rw [← hlen, Nat.add_assoc, Nat.add_comm 1])
    refine ⟨w :: ws, ?_, by rw [List.length_cons, hwslen, List.length_cons], ?_, ?_⟩
    · simp only [commitElements, hsize, hchunk, hcommit, hcommits, Option.bind_eq_bind,
        Option.bind_some]
    · intro x hx
      rcases List.mem_cons.mp hx with rfl | hx
      · exact ⟨hw, hwtag.trans htag⟩
      · exact hws x hx
    · have hdrop : bytes.drop ((i + 1) * n) = (bytes.drop (i * n)).drop n := by
        rw [List.drop_drop, Nat.succ_mul]
      rw [syncElements, hsync, hsyncs, hdrop]
      exact congrArg some (List.take_append_drop n _)

theorem syncElements_injective (vs ws : List InputArgument) (hvs : Elements t vs)
    (hws : Elements t ws) (hlen : ws.length = vs.length) (h : syncElements vs = syncElements ws) :
    vs = ws := by
  induction vs generalizing ws with
  | nil => exact (List.eq_nil_of_length_eq_zero hlen).symm
  | cons v vs ih =>
    cases ws with
    | nil => cases hlen
    | cons w ws =>
      obtain ⟨⟨hv, hvtag⟩, hvs⟩ := hvs.cons
      obtain ⟨⟨hw, hwtag⟩, hws⟩ := hws.cons
      obtain ⟨bytes, hsync, hsize⟩ := sync_isSome v hv
      obtain ⟨bytes', hsync', hsize'⟩ := sync_isSome w hw
      rw [hvtag] at hsize
      rw [hwtag] at hsize'
      obtain ⟨rest, hsyncs, _⟩ := syncElements_isSome t _ hsize vs hvs
      obtain ⟨rest', hsyncs', _⟩ := syncElements_isSome t _ hsize' ws hws
      have heq : bytes ++ rest = bytes' ++ rest' := by
        simpa only [syncElements, hsync, hsync', hsyncs, hsyncs', Option.bind_eq_bind,
          Option.bind_some, Option.some.injEq] using h
      obtain ⟨hfirst, hlast⟩ := List.append_inj heq
        (Option.some.inj (hsize.symm.trans hsize'))
      have hvw : v = w := sync_injective v w hv hw (hwtag.trans hvtag.symm)
        (by rw [hsync, hsync', hfirst])
      have hrest := ih ws hvs hws (Nat.succ.inj hlen) (by rw [hsyncs, hsyncs', hlast])
      rw [hvw, hrest]

end

theorem sameShape_number (v w : InputArgument) (hv : (number v).isSome = true)
    (hw : (number w).isSome = true) (htag : InputArgument.typeTag w = InputArgument.typeTag v) :
    SameShape v w := by
  cases v <;> cases hv <;> cases w <;> cases hw <;> cases htag <;> exact ⟨rfl, rfl⟩

theorem sync_commit_number (v : InputArgument) (h : (number v).isSome = true) :
    ∃ bytes, sync v = some bytes ∧ commit bytes v = some v ∧
      ∀ b : List Byte, b.length = bytes.length →
        ∃ w, commit b v = some w ∧ sync w = some b ∧ SameShape v w := by
  obtain ⟨bytes, hsync, hsize⟩ := sync_isSome v h
  have hall : ∀ b : List Byte, b.length = bytes.length →
      ∃ w, commit b v = some w ∧ sync w = some b ∧ (number w).isSome = true ∧
        InputArgument.typeTag w = InputArgument.typeTag v := by
    intro b hb
    exact commit_sync v b h (by rw [hsize, hb])
  refine ⟨bytes, hsync, ?_, ?_⟩
  · obtain ⟨w, hcommit, hback, hw, htag⟩ := hall bytes rfl
    rw [hcommit, ← sync_injective v w h hw htag (hsync.trans hback.symm)]
  · intro b hb
    obtain ⟨w, hcommit, hback, hw, htag⟩ := hall b hb
    exact ⟨w, hcommit, hback, sameShape_number v w h hw htag⟩

theorem sync_commit_vector (t : MoveTypeTag) (vs : List InputArgument) (h : Elements t vs) :
    ∃ bytes, sync (.vector t vs) = some bytes ∧ commit bytes (.vector t vs) = some (.vector t vs) ∧
      ∀ b : List Byte, b.length = bytes.length →
        ∃ w, commit b (.vector t vs) = some w ∧ sync w = some b ∧ SameShape (.vector t vs) w := by
  cases vs with
  | nil =>
    refine ⟨[], rfl, rfl, ?_⟩
    intro b hb
    rw [List.eq_nil_of_length_eq_zero hb]
    exact ⟨.vector t [], rfl, rfl, rfl, rfl⟩
  | cons v rest =>
    obtain ⟨⟨hv, htag⟩, _⟩ := h.cons
    obtain ⟨first, _, hsize⟩ := sync_isSome v hv
    rw [htag] at hsize
    obtain ⟨bytes, hsync, hlen⟩ := syncElements_isSome t _ hsize (v :: rest) h
    have hall : ∀ b : List Byte, b.length = bytes.length →
        ∃ ws, commit b (.vector t (v :: rest)) = some (.vector t ws) ∧ syncElements ws = some b ∧
          ws.length = (v :: rest).length ∧ Elements t ws := by
      intro b hb
      obtain ⟨ws, hcommit, hwslen, hws, hsyncs⟩ := commitElements_sync t _ hsize b 0 (v :: rest) h
        (by rw [Nat.zero_add, hb, hlen])
      rw [Nat.zero_mul, List.drop_zero] at hsyncs
      exact ⟨ws, by rw [commit, hcommit, Option.map_some], hsyncs, hwslen, hws⟩
    refine ⟨bytes, hsync, ?_, ?_⟩
    · obtain ⟨ws, hcommit, hback, hwslen, hws⟩ := hall bytes rfl
      rw [hcommit, ← syncElements_injective t (v :: rest) ws h hws hwslen (hsync.trans hback.symm)]
    · intro b hb
      obtain ⟨ws, hcommit, hback, hwslen, _⟩ := hall b hb
      exact ⟨.vector t ws, hcommit, hback, rfl, hwslen⟩

/-- The byte view of an integer or of a vector of integers agrees with its value: the
bytes of the value give it back, and any other bytes of that length are the bytes of
another value of the same shape. -/
theorem sync_commit_inverse (v : InputArgument) (h : IntegerData v) :
    ∃ bytes, sync v = some bytes ∧ commit bytes v = some v ∧
      ∀ b : List Byte, b.length = bytes.length →
        ∃ w, commit b v = some w ∧ sync w = some b ∧ SameShape v w := by
  cases v with
  | vector t vs => exact sync_commit_vector t vs h
  | u8 x | u16 x | u32 x | u64 x | u128 x | u256 x => exact sync_commit_number _ h
  | bool | signer | address | object => cases h

theorem sync_commit_inverse_u16s :
    sync (.vector .u16 [.u16 258, .u16 5]) = some [2, 1, 5, 0] ∧
    ∃ bytes, sync (.vector .u16 [.u16 258, .u16 5]) = some bytes ∧
      commit bytes (.vector .u16 [.u16 258, .u16 5]) = some (.vector .u16 [.u16 258, .u16 5]) ∧
      ∀ b : List Byte, b.length = bytes.length →
        ∃ w, commit b (.vector .u16 [.u16 258, .u16 5]) = some w ∧ sync w = some b ∧
          SameShape (.vector .u16 [.u16 258, .u16 5]) w :=
  ⟨by decide, sync_commit_inverse _ (by
    intro v hv
    rcases List.mem_cons.mp hv with rfl | hv
    · exact ⟨rfl, rfl⟩
    · rw [List.mem_singleton.mp hv]
      exact ⟨rfl, rfl⟩)⟩

end Movy.Fuzz
