import Movy.Tracer.Compare

/-!
# Every instruction on the shadow stack

For each instruction of the VM, the engine does not panic, takes as many
symbols from the shadow stack as the instruction takes operands, and leaves one
fitting symbol for each result.
-/

namespace Movy.Tracer

open ConcolicState InstructionExtraInformation

variable (I : Interp ArgVar) (U : ZInt → Prop)

/- The instructions for which the engine needs a table of the module. -/
inductive Bytecode.NeedsTable : Bytecode → Prop
  | pack (g : Bool) (idx : ℕ) : NeedsTable (packCode g idx)
  | unpack (g : Bool) (idx : ℕ) : NeedsTable (unpackCode g idx)
  | packVariant (g : Bool) (idx : ℕ) : NeedsTable (packVariantCode g idx)
  | unpackVariant (g : Bool) (idx : ℕ) : NeedsTable (unpackVariantCode g idx)
  | unpackVariantRef (m g : Bool) (idx : ℕ) : NeedsTable (unpackVariantRefCode m g idx)

/- The engine runs `ins` with the symbols above `srest` as its operands, and its
results fit. -/
def Shadows (vm : Vm) (fr : VmFrame) (resolver : PackageResolvedCache) (c : ConcolicState)
    (ins : Bytecode) (stack : List TraceValue) (srest : List SymbolValue)
    (out : Option (List RtValue)) : Prop :=
  ∃ extra syms k, fromResolver ins resolver fr.versionId fr.code.selfId = some extra ∧
    c.shadowInstruction ins stack extra = some ({ c with stack := syms ++ srest }, k) ∧
    ∀ res, out = some res → List.Forall₂ (Fits I U vm) syms res

/- A symbol that `ins` pushes is not trusted. -/
def Distrusts (c : ConcolicState) (ins : Bytecode) (stack : List TraceValue) : Prop :=
  ∀ extra c' k e, c.shadowInstruction ins stack extra = some (c', k) →
    c'.stack.head? = some (.value e) → U e

theorem forall₂_single {α β : Type} {R : α → β → Prop} {l : List α} {x : β}
    (h : List.Forall₂ R l [x]) : ∃ a, l = [a] ∧ R a x := by
  cases h with
  | cons hx h =>
    cases h
    exact ⟨_, rfl, hx⟩

theorem forall₂_pair {α β : Type} {R : α → β → Prop} {l : List α} {x y : β}
    (h : List.Forall₂ R l [x, y]) : ∃ a b, l = [a, b] ∧ R a x ∧ R b y := by
  cases h with
  | cons hx h =>
    cases h with
    | cons hy h =>
      cases h
      exact ⟨_, _, rfl, hx, hy⟩

section

variable {I U} {vm : Vm} {fr : VmFrame} {resolver : PackageResolvedCache} {c : ConcolicState}

theorem shadows_intro (ins : Bytecode) (stack : List TraceValue) (srest syms : List SymbolValue)
    (k : Option ZBool) (extra : Option InstructionExtraInformation) (res : List RtValue)
    (hx : fromResolver ins resolver fr.versionId fr.code.selfId = some extra)
    (hs : c.shadowInstruction ins stack extra = some ({ c with stack := syms ++ srest }, k))
    (hf : List.Forall₂ (Fits I U vm) syms res) :
    Shadows I U vm fr resolver c ins stack srest (some res) := by
  refine ⟨extra, syms, k, hx, hs, ?_⟩
  intro res' h
  cases h
  exact hf

theorem checked_fits (w : IntWidth) (n : ℕ) (s : SymbolValue)
    (h : ∀ e, s = .value e → e.Means I U n) (res : List RtValue) (hres : checked w n = some res) :
    List.Forall₂ (Fits I U vm) [s] res := by
  unfold checked at hres
  split_ifs at hres with hn
  cases hres
  refine .cons ?_ .nil
  intro e he
  exact ⟨.int w ⟨n, hn⟩, rfl, h e he⟩

theorem fits_val_int (s : SymbolValue) (w : IntWidth) (n : Fin (2 ^ w.bits))
    (h : Fits I U vm s (.val (.int w n))) (e : ZInt) (he : s = .value e) : e.Means I U n := by
  obtain ⟨p, hp, hm⟩ := h e he
  cases hp
  exact hm

theorem fits_val_bool (s : SymbolValue) (b : Bool) (h : Fits I U vm s (.val (.bool b))) (e : ZInt)
    (he : s = .value e) : e.Means I U (PrimitiveValue.bool b).asU256 := by
  obtain ⟨p, hp, hm⟩ := h e he
  cases hp
  exact hm

theorem fits_toRt (s : SymbolValue) (p : PrimitiveValue) (h : Fits I U vm s p.toRt) (e : ZInt)
    (he : s = .value e) : e.Means I U p.asU256 := by
  obtain ⟨q, hq, hm⟩ := h e he
  rw [primOf_toRt] at hq
  cases hq
  exact hm

theorem fits_of_prim_eq (s : SymbolValue) (r r' : RtValue) (h : Fits I U vm s r)
    (heq : vm.primOf r' = vm.primOf r) : Fits I U vm s r' := by
  intro e he
  obtain ⟨p, hp, hm⟩ := h e he
  exact ⟨p, heq.trans hp, hm⟩

/-! ### Casts and arithmetic -/

theorem shadows_cast (w v : IntWidth) (n : Fin (2 ^ v.bits)) (s : SymbolValue)
    (srest : List SymbolValue) (stack : List TraceValue) (hc : c.stack = s :: srest)
    (hs : Fits I U vm s (.val (.int v n))) :
    Shadows I U vm fr resolver c (.castU w) stack srest (checked w n) := by
  have hcast : ∀ w' : IntWidth, ∃ k, c.castInstruction w'.bits = some (c, k) := by
    intro w'
    rw [castInstruction, hc, maxUBits_eq]
    cases s <;> exact ⟨_, rfl⟩
  have hshadow : ∃ k, c.shadowInstruction (.castU w) stack none = some (c, k) := by
    cases w with
    | w8 => exact hcast .w8
    | w16 => exact hcast .w16
    | w32 => exact hcast .w32
    | w64 => exact hcast .w64
    | w128 => exact hcast .w128
    | w256 => exact ⟨none, rfl⟩
  obtain ⟨k, hk⟩ := hshadow
  refine ⟨none, [s], k, rfl, ?_, fun res hres => ?_⟩
  · rw [hk, List.singleton_append, ← hc]
  · exact checked_fits w n s (fits_val_int s v n hs) res hres

theorem shadows_arith (op : ArithOp) (w : IntWidth) (a b : Fin (2 ^ w.bits)) (sl sr : SymbolValue)
    (srest : List SymbolValue) (tl tr : TraceValue) (trest : List TraceValue)
    (hc : c.stack = sr :: sl :: srest) (hl : Fits I U vm sl (.val (.int w a)))
    (hr : Fits I U vm sr (.val (.int w b))) (htl : Shows vm tl (.val (.int w a)))
    (htr : Shows vm tr (.val (.int w b))) :
    Shadows I U vm fr resolver c op.code (tr :: tl :: trest) srest
      ((op.apply a b).bind (checked w)) := by
  obtain ⟨s, hs, hmeans⟩ := arith_shadow (I := I) (U := U) c _ op.term sl sr srest tl tr trest
    (.int w a) (.int w b) hc rfl (shows_toRt tl (.int w a) htl) (shows_toRt tr (.int w b) htr)
    (fits_val_int sl w a hl) (fits_val_int sr w b hr)
  refine ⟨none, [s], none, by cases op <;> rfl, by rw [shadow_arith]; exact hs, ?_⟩
  intro res hres
  obtain ⟨n, hn, hchecked⟩ := Option.bind_eq_some_iff.mp hres
  refine checked_fits w n s ?_ res hchecked
  intro e he
  rcases hmeans with rfl | ⟨l, r, rfl, hml, hmr⟩
  · cases he
  · cases he
    exact arith_means I U op l r a b n hml hmr hn

/-! ### Bits and shifts -/

theorem shadows_bit (op : BitOp) (p q r : PrimitiveValue) (sl sr : SymbolValue)
    (srest : List SymbolValue) (tl tr : TraceValue) (trest : List TraceValue) (orest : List RtValue)
    (hpq : p.bitwidth = q.bitwidth) (hr : r.asU256 = op.apply p.asU256 q.asU256)
    (hc : c.stack = sr :: sl :: srest) (hfl : Fits I U vm sl p.toRt) (hfr : Fits I U vm sr q.toRt)
    (htl : Shows vm tl p.toRt) (htr : Shows vm tr q.toRt)
    (hsafe : Exempt vm op.code (tr :: tl :: trest) (q.toRt :: p.toRt :: orest) (r.toRt :: orest) →
      Distrusts U c op.code (tr :: tl :: trest)) :
    Shadows I U vm fr resolver c op.code (tr :: tl :: trest) srest (some [r.toRt]) := by
  have hshadow : c.shadowInstruction op.code (tr :: tl :: trest) none =
      some ({ c with stack := [bitSymbol op sl sr p q] ++ srest }, none) := by
    rw [shadow_bit]
    exact bit_shadow op c sl sr srest tl tr trest p q hc (shows_toRt tl p htl) (shows_toRt tr q htr)
  refine shadows_intro _ _ _ _ none none _ (by cases op <;> rfl) hshadow (.cons ?_ .nil)
  intro e he
  refine ⟨r, primOf_toRt r, ?_⟩
  by_cases hex : Exempt vm op.code (tr :: tl :: trest) (q.toRt :: p.toRt :: orest) (r.toRt :: orest)
  · exact .of_untrusted (hsafe hex none _ none e hshadow (congrArg some he))
  · rw [hr]
    refine bitSymbol_means I U op sl sr p q hpq ?_ (fits_toRt sl p hfl) (fits_toRt sr q hfr) e he
    -- at 256 bits the instruction would be exempt
    cases p with
    | bool b => exact (by decide : 1 < 256)
    | int w a => exact w.bits_lt fun hw => by subst hw; exact hex (.wide op _ _ a _ _)

theorem shadows_shl (w : IntWidth) (a : Fin (2 ^ w.bits)) (s : Fin (2 ^ 8)) (sl sr : SymbolValue)
    (srest : List SymbolValue) (tl tr : TraceValue) (trest : List TraceValue) (orest : List RtValue)
    (hc : c.stack = sr :: sl :: srest) (hfl : Fits I U vm sl (.val (.int w a)))
    (htl : Shows vm tl (.val (.int w a))) (htr : Shows vm tr (.val (.int .w8 s)))
    (hsafe : ∀ res,
      (if s.val < w.bits then checked w (a.val * 2 ^ s.val % 2 ^ w.bits) else none) = some res →
        Exempt vm .shl (tr :: tl :: trest) (.val (.int .w8 s) :: .val (.int w a) :: orest)
          (res ++ orest) → Distrusts U c .shl (tr :: tl :: trest)) :
    Shadows I U vm fr resolver c .shl (tr :: tl :: trest) srest
      (if s.val < w.bits then checked w (a.val * 2 ^ s.val % 2 ^ w.bits) else none) := by
  obtain ⟨k, hshadow⟩ := shl_shadow c sl sr srest tl tr trest w a s hc
    (shows_toRt tl (.int w a) htl) (shows_toRt tr (.int .w8 s) htr)
  refine ⟨none, [shlSymbol sl sr w s], k, rfl, hshadow, ?_⟩
  intro res hout
  have hres := hout
  split_ifs at hres
  refine checked_fits w _ _ ?_ res hres
  intro e he
  by_cases hw : w = .w256
  · subst hw
    exact .of_untrusted
      (hsafe res hout (.wideShl _ _ a _ _) none _ k e hshadow (congrArg some he))
  · exact shlSymbol_means I U sl sr w a s (w.bits_lt hw) s.isLt (fits_val_int sl w a hfl) e he

theorem shadows_shr (w : IntWidth) (a : Fin (2 ^ w.bits)) (s : Fin (2 ^ 8)) (sl sr : SymbolValue)
    (srest : List SymbolValue) (tl tr : TraceValue) (trest : List TraceValue)
    (hc : c.stack = sr :: sl :: srest) (hfl : Fits I U vm sl (.val (.int w a)))
    (htr : Shows vm tr (.val (.int .w8 s))) :
    Shadows I U vm fr resolver c .shr (tr :: tl :: trest) srest
      (if s.val < w.bits then checked w (a.val / 2 ^ s.val) else none) := by
  have hshadow := shr_shadow c sl sr srest tl tr trest s hc (shows_toRt tr (.int .w8 s) htr)
  refine ⟨none, [shrSymbol sl sr s], none, rfl, hshadow, ?_⟩
  intro res hres
  split_ifs at hres
  exact checked_fits w _ _ (shrSymbol_means I U sl sr a s s.isLt (fits_val_int sl w a hfl)) res hres

theorem shadows_not (b : Bool) (s : SymbolValue) (srest : List SymbolValue) (t : TraceValue)
    (trest : List TraceValue) (hc : c.stack = s :: srest) (hs : Fits I U vm s (.val (.bool b)))
    (ht : Shows vm t (.val (.bool b))) :
    Shadows I U vm fr resolver c .not (t :: trest) srest (some [.val (.bool !b)]) := by
  have htop := shows_toRt t (.bool b) ht
  cases s with
  | unknown =>
    refine shadows_intro _ _ _ [.unknown] none none _ rfl ?_ (.cons (fits_unknown _) .nil)
    show c.notInstruction (t :: trest) = _
    simp only [notInstruction, hc, List.singleton_append]
    rw [← hc]
  | value n =>
    refine shadows_intro _ _ _ [.value (intBvnot n 1)] none none _ rfl ?_ (.cons ?_ .nil)
    · show c.notInstruction (t :: trest) = _
      simp only [notInstruction, hc, List.head?_cons, Option.bind_eq_bind, Option.bind_some,
        valueBitwidth, htop, Option.map_some, PrimitiveValue.bitwidth]
      rfl
    · refine fits_prim _ _ (.bool !b) rfl ?_
      have hn := fits_val_bool (.value n) b hs n rfl
      have hm := intBvnot_means I U n _ 1 (by decide) hn (PrimitiveValue.bool b).asU256_lt
      cases b <;> exact hm

/-! ### Comparisons -/

/- A comparison of two values of one type, decided on primitive values by their
numbers. -/
structure Compares (vm : Vm) (op : CmpOp) (l r : RtValue) (b : Bool) : Prop where
  kind : vm.kindOf l = vm.kindOf r
  outcome : ∀ p q, vm.primOf l = some p → vm.primOf r = some q →
    b = op.holds p.asU256 q.asU256

theorem denotes_eq_iff (l r : RtValue) (p q : PrimitiveValue) (hl : vm.primOf l = some p)
    (hr : vm.primOf r = some q) (hk : vm.kindOf l = vm.kindOf r) :
    vm.denotes l = vm.denotes r ↔ p.asU256 = q.asU256 := by
  rw [kindOf_of_prim l p hl, kindOf_of_prim r q hr] at hk
  obtain ⟨v, hv, hvp⟩ := Option.bind_eq_some_iff.mp hl
  obtain ⟨w, hw, hwq⟩ := Option.bind_eq_some_iff.mp hr
  rw [hv, hw, Option.some.injEq]
  refine ⟨fun h => ?_, fun h => ?_⟩
  · subst h
    rw [Option.some.inj (hvp.symm.trans hwq)]
  · obtain rfl := PrimitiveValue.eq_of_asU256 p q (Option.some.inj hk) h
    exact MoveValue.eq_of_primitive v w p hvp hwq

theorem compares_eq (l r : RtValue) (b : Bool) (hk : vm.kindOf l = vm.kindOf r)
    (hb : b = true ↔ vm.denotes l = vm.denotes r) : Compares vm .eq l r b := by
  refine ⟨hk, fun p q hp hq => ?_⟩
  rw [denotes_eq_iff l r p q hp hq hk] at hb
  exact Bool.eq_iff_iff.mpr (hb.trans decide_eq_true_iff.symm)

theorem compares_neq (l r : RtValue) (b : Bool) (hk : vm.kindOf l = vm.kindOf r)
    (hb : b = true ↔ vm.denotes l ≠ vm.denotes r) : Compares vm .neq l r b := by
  refine ⟨hk, fun p q hp hq => ?_⟩
  rw [Ne, denotes_eq_iff l r p q hp hq hk] at hb
  exact Bool.eq_iff_iff.mpr (hb.trans decide_eq_true_iff.symm)

theorem compares_order (op : CmpOp) (w : IntWidth) (a b : Fin (2 ^ w.bits)) :
    Compares vm op (.val (.int w a)) (.val (.int w b)) (op.holds a b) := by
  refine ⟨rfl, fun p q hp hq => ?_⟩
  cases hp
  cases hq
  rfl

theorem compared_prims (op : CmpOp) (l r : RtValue) (b : Bool) (sl sr : SymbolValue)
    (tl tr : TraceValue) (hcmp : Compares vm op l r b) (hfl : Fits I U vm sl l)
    (hfr : Fits I U vm sr r) (htl : Shows vm tl l) (htr : Shows vm tr r)
    (hsym : sl ≠ .unknown ∨ sr ≠ .unknown) :
    ∃ p q p' q', vm.primOf l = some p ∧ vm.primOf r = some q ∧
      extractPrimitiveValue tl = some p' ∧ extractPrimitiveValue tr = some q' ∧
      p'.bitwidth = q'.bitwidth := by
  have hkind : ∃ k, vm.kindOf l = some k := by
    rcases hsym with h | h
    · cases sl with
      | unknown => exact absurd rfl h
      | value e =>
        obtain ⟨p, hp, _⟩ := hfl e rfl
        exact ⟨_, kindOf_of_prim l p hp⟩
    · cases sr with
      | unknown => exact absurd rfl h
      | value e =>
        obtain ⟨q, hq, _⟩ := hfr e rfl
        exact ⟨_, hcmp.kind.trans (kindOf_of_prim r q hq)⟩
  obtain ⟨k, hl⟩ := hkind
  have hr : vm.kindOf r = some k := hcmp.kind.symm.trans hl
  obtain ⟨p, hp, _⟩ := Option.map_eq_some_iff.mp hl
  obtain ⟨q, hq, _⟩ := Option.map_eq_some_iff.mp hr
  obtain ⟨p', hp', hpk⟩ := shown_prim tl l k htl hl
  obtain ⟨q', hq', hqk⟩ := shown_prim tr r k htr hr
  exact ⟨p, q, p', q', hp, hq, hp', hq', hpk.trans hqk.symm⟩

theorem fits_shown (s : SymbolValue) (r : RtValue) (p : PrimitiveValue) (h : Fits I U vm s r)
    (hr : vm.primOf r = some p) (e : ZInt) (he : s = .value e) : e.Means I U p.asU256 := by
  obtain ⟨p', hp', hm⟩ := h e he
  rw [hr] at hp'
  cases hp'
  exact hm

theorem shadows_compare (op : CmpOp) (l r : RtValue) (b : Bool) (sl sr : SymbolValue)
    (srest : List SymbolValue) (tl tr : TraceValue) (trest : List TraceValue) (orest : List RtValue)
    (hcmp : Compares vm op l r b) (hc : c.stack = sr :: sl :: srest) (hfl : Fits I U vm sl l)
    (hfr : Fits I U vm sr r) (htl : Shows vm tl l) (htr : Shows vm tr r)
    (hsafe : Exempt vm op.code (tr :: tl :: trest) (r :: l :: orest) (.val (.bool b) :: orest) →
      Distrusts U c op.code (tr :: tl :: trest)) :
    Shadows I U vm fr resolver c op.code (tr :: tl :: trest) srest (some [.val (.bool b)]) := by
  have hx : fromResolver op.code resolver fr.versionId fr.code.selfId = some none := by
    cases op <;> rfl
  by_cases hsym : sl ≠ .unknown ∨ sr ≠ .unknown
  · obtain ⟨p, q, p', q', hp, hq, hp', hq', hw⟩ :=
      compared_prims op l r b sl sr tl tr hcmp hfl hfr htl htr hsym
    obtain ⟨x, y, hxy⟩ := resolved_of_symbol sl sr tl tr p' q' hp' hq' hsym
    have hshadow := compare_shadow op c sl sr srest tl tr trest none p' q' hc hp' hq' hw x y hxy
    refine shadows_intro _ _ _ [asInt (op.pushed (op.holds p'.asU256 q'.asU256) x y)] _ none _ hx
      hshadow (.cons ?_ .nil)
    refine fits_prim _ _ (.bool b) rfl ?_
    by_cases hex : Exempt vm op.code (tr :: tl :: trest) (r :: l :: orest) (.val (.bool b) :: orest)
    · exact .of_untrusted (hsafe hex none _ _ _ hshadow rfl)
    · -- the comparison holds, of the values that the trace shows
      obtain rfl : p' = p := by
        by_contra hne
        refine hex (.stale op tr tl trest r l orest _ (.inr ?_))
        rw [hp', hp]
        exact fun h => hne (Option.some.inj h)
      obtain rfl : q' = q := by
        by_contra hne
        refine hex (.stale op tr tl trest r l orest _ (.inl ?_))
        rw [hq', hq]
        exact fun h => hne (Option.some.inj h)
      obtain rfl : b = true := by
        cases b with
        | true => rfl
        | false => exact absurd (.failed op _ _ _) hex
      obtain ⟨hmx, hmy⟩ := resolved_means sl sr tl tr p' q' x y hp' hq'
        (fits_shown sl l p' hfl hp) (fits_shown sr r q' hfr hq) hxy
      have hout := (hcmp.outcome p' q' hp hq).symm
      rw [hout]
      exact pushed_means op x y _ _ hmx hmy hout
  · simp only [ne_eq, not_or, not_not] at hsym
    obtain ⟨rfl, rfl⟩ := hsym
    exact shadows_intro _ _ _ [.unknown] none none _ hx
      (compare_shadow_unknown op c srest tl tr trest none hc) (.cons (fits_unknown _) .nil)

theorem shadows_compared (op : CmpOp) (l r : RtValue) (b : Bool) (ss srest : List SymbolValue)
    (ts trest : List TraceValue) (orest : List RtValue) (hcmp : Compares vm op l r b)
    (hc : c.stack = ss ++ srest) (hss : List.Forall₂ (Fits I U vm) ss [r, l])
    (hts : List.Forall₂ (Shows vm) ts [r, l])
    (hsafe : Exempt vm op.code (ts ++ trest) (r :: l :: orest) (.val (.bool b) :: orest) →
      Distrusts U c op.code (ts ++ trest)) :
    Shadows I U vm fr resolver c op.code (ts ++ trest) srest (some [.val (.bool b)]) := by
  obtain ⟨sr, sl, rfl, hfr, hfl⟩ := forall₂_pair hss
  obtain ⟨tr, tl, rfl, htr, htl⟩ := forall₂_pair hts
  exact shadows_compare op l r b sl sr srest tl tr trest orest hcmp hc hfl hfr htl htr hsafe

/-! ### The stack and the locals -/

theorem shadows_same (ins : Bytecode) (stack : List TraceValue) (s : SymbolValue)
    (srest : List SymbolValue) (out : Option (List RtValue)) (hc : c.stack = s :: srest)
    (hx : fromResolver ins resolver fr.versionId fr.code.selfId = some none)
    (hs : c.shadowInstruction ins stack none = some (c, none))
    (hf : ∀ res, out = some res → List.Forall₂ (Fits I U vm) [s] res) :
    Shadows I U vm fr resolver c ins stack srest out := by
  refine ⟨none, [s], none, hx, ?_, hf⟩
  rw [hs, List.singleton_append, ← hc]

theorem shadows_push (ins : Bytecode) (stack : List TraceValue) (s : SymbolValue)
    (srest : List SymbolValue) (r : RtValue) (hc : c.stack = srest)
    (hx : fromResolver ins resolver fr.versionId fr.code.selfId = some none)
    (hs : c.shadowInstruction ins stack none = some (c.push s, none)) (hf : Fits I U vm s r) :
    Shadows I U vm fr resolver c ins stack srest (some [r]) :=
  hc ▸ shadows_intro _ _ _ [s] none none _ hx hs (.cons hf .nil)

/- The operands go, and nothing comes. -/
theorem shadows_drop (ins : Bytecode) (stack : List TraceValue) (ss srest : List SymbolValue)
    (ops : List RtValue) (out : Option (List RtValue)) (hc : c.stack = ss ++ srest)
    (hss : List.Forall₂ (Fits I U vm) ss ops)
    (hx : fromResolver ins resolver fr.versionId fr.code.selfId = some none)
    (hs : c.shadowInstruction ins stack none = some (c.drop ops.length, none))
    (hout : ∀ res, out = some res → res = []) :
    Shadows I U vm fr resolver c ins stack srest out := by
  refine ⟨none, [], none, hx, ?_, fun res hres => ?_⟩
  · rw [hs, drop, hc, ← hss.length_eq, List.drop_left, List.nil_append]
  · rw [hout res hres]
    exact .nil

theorem shadows_load (ins : Bytecode) (idx : ℕ) (stack : List TraceValue)
    (srest : List SymbolValue) (r r' : RtValue) (hstack : c.stack = srest)
    (locals : List SymbolValue) (outer : List (List SymbolValue))
    (hx : fromResolver ins resolver fr.versionId fr.code.selfId = some none)
    (hs : c.shadowInstruction ins stack none = some (c.loadLocal idx, none))
    (hc : c.locals = locals :: outer) (hl : LocalsFit I U vm locals fr)
    (hr : vm.locals fr.id idx = some r) (hprim : vm.primOf r' = vm.primOf r) :
    Shadows I U vm fr resolver c ins stack srest (some [r']) := by
  rw [← hstack]
  refine shadows_intro _ _ _ [locals[idx]?.getD .unknown] none none _ hx ?_ (.cons ?_ .nil)
  · rw [hs, loadLocal, hc]
    simp only [push, hc, List.singleton_append]
  · cases hi : locals[idx]? with
    | none => exact fits_unknown r'
    | some s => exact fits_of_prim_eq s r r' (hl idx s r hi hr) hprim

theorem lookup_eq (count : CompiledModule → Option ℕ) (make : ℕ → InstructionExtraInformation)
    (n : ℕ) (hmod : resolver.moduleRef fr.code.selfId fr.versionId = some fr.code)
    (hn : count fr.code = some n) :
    InstructionExtraInformation.lookup resolver fr.versionId fr.code.selfId count make =
      some (some (make n)) := by
  rw [InstructionExtraInformation.lookup, hmod]
  simp only [hn, Option.map_some]

/-! ### References -/

theorem shadows_ref (ins : Bytecode) (stack : List TraceValue) (ss srest : List SymbolValue)
    (r r' : RtValue) (hc : c.stack = ss ++ srest) (hss : List.Forall₂ (Fits I U vm) ss [r])
    (hx : fromResolver ins resolver fr.versionId fr.code.selfId = some none)
    (hs : c.shadowInstruction ins stack none = some (c, none))
    (hprim : vm.primOf r' = vm.primOf r) :
    Shadows I U vm fr resolver c ins stack srest (some [r']) := by
  obtain ⟨s, rfl, hfits⟩ := forall₂_single hss
  refine shadows_same _ _ _ _ _ hc hx hs fun res hres => ?_
  cases hres
  exact .cons (fits_of_prim_eq _ _ _ hfits hprim) .nil

theorem fits_aggregate (s : SymbolValue) (m : Bool) (l : Location) (v : MoveValue)
    (h : Fits I U vm s (.ref m l)) (hr : vm.readLoc l = some v) (hv : v.primitive = none) :
    s = .unknown := by
  refine fits_none s _ h ?_
  rw [Vm.primOf, Vm.denotes, hr, Option.bind_some, hv]

/- What is read off a vector or a struct behind a reference has no symbol. -/
theorem shadows_aggregate (ins : Bytecode) (stack : List TraceValue) (ss srest : List SymbolValue)
    (m : Bool) (l : Location) (v : MoveValue) (out : Option (List RtValue))
    (hc : c.stack = ss ++ srest) (hss : List.Forall₂ (Fits I U vm) ss [.ref m l])
    (hr : vm.readLoc l = some v) (hv : v.primitive = none)
    (hx : fromResolver ins resolver fr.versionId fr.code.selfId = some none)
    (hs : c.shadowInstruction ins stack none = some (c, none))
    (hout : ∀ res, out = some res → ∃ r, res = [r]) :
    Shadows I U vm fr resolver c ins stack srest out := by
  obtain ⟨s, rfl, hfits⟩ := forall₂_single hss
  obtain rfl := fits_aggregate s m l v hfits hr hv
  refine shadows_same _ _ _ _ _ hc hx hs fun res hres => ?_
  obtain ⟨r, rfl⟩ := hout res hres
  exact .cons (fits_unknown r) .nil

/- The index goes, and the symbol of the vector, which is none, stays for the element. -/
theorem shadows_vecBorrow (m m' : Bool) (sig : ℕ) (stack : List TraceValue)
    (ss srest : List SymbolValue) (i r : RtValue) (l : Location) (vs : List MoveValue)
    (out : Option (List RtValue)) (hc : c.stack = ss ++ srest)
    (hss : List.Forall₂ (Fits I U vm) ss [i, .ref m' l]) (h : vm.readLoc l = some (.vector vs))
    (hout : ∀ res, out = some res → res = [r]) :
    Shadows I U vm fr resolver c (vecBorrowCode m sig) stack srest out := by
  obtain ⟨si, s, rfl, -, hs⟩ := forall₂_pair hss
  obtain rfl := fits_aggregate s m' l _ hs h rfl
  have hshadow : c.shadowInstruction (vecBorrowCode m sig) stack none = some (c.drop 1, none) := by
    cases m <;> rfl
  refine ⟨none, [.unknown], none, by cases m <;> rfl, ?_, fun res hres => ?_⟩
  · rw [hshadow, drop, hc]
    rfl
  · rw [hout res hres]
    exact .cons (fits_unknown r) .nil

/-! ### Aggregates -/

theorem pushed_length (vs : List MoveValue) : (pushed vs).length = vs.length := by
  rw [pushed, List.length_map, List.length_reverse]

theorem pushed_if_length (vs : List MoveValue) (n : ℕ) (res : List RtValue)
    (h : (if vs.length = n then some (pushed vs) else none) = some res) : res.length = n := by
  split_ifs at h with hn
  cases h
  rw [pushed_length, hn]

/- The fields become one value, which has no symbol. -/
theorem shadows_pack (ins : Bytecode) (stack : List TraceValue) (ss srest : List SymbolValue)
    (vs : List MoveValue) (extra : Option InstructionExtraInformation) (r : RtValue)
    (hc : c.stack = ss ++ srest) (hss : List.Forall₂ (Fits I U vm) ss (pushed vs))
    (hx : fromResolver ins resolver fr.versionId fr.code.selfId = some extra)
    (hs : c.shadowInstruction ins stack extra = some (c.packInstruction vs.length, none)) :
    Shadows I U vm fr resolver c ins stack srest (some [r]) := by
  refine shadows_intro _ _ _ [.unknown] none extra _ hx ?_ (.cons (fits_unknown r) .nil)
  rw [hs, packInstruction, drop, push, hc, ← pushed_length vs, ← hss.length_eq, List.drop_left,
    List.singleton_append]

/- One value becomes its fields, which have none either. -/
theorem shadows_unpack (ins : Bytecode) (stack : List TraceValue) (ss srest : List SymbolValue)
    (r : RtValue) (n : ℕ) (extra : Option InstructionExtraInformation)
    (out : Option (List RtValue)) (hc : c.stack = ss ++ srest)
    (hss : List.Forall₂ (Fits I U vm) ss [r])
    (hx : fromResolver ins resolver fr.versionId fr.code.selfId = some extra)
    (hs : c.shadowInstruction ins stack extra = some (c.unpackInstruction n, none))
    (hlen : ∀ res, out = some res → res.length = n) :
    Shadows I U vm fr resolver c ins stack srest out := by
  obtain ⟨s, rfl, -⟩ := forall₂_single hss
  refine ⟨extra, List.replicate n .unknown, none, hx, ?_, fun res hres => ?_⟩
  · rw [hs, unpackInstruction, hc]
    rfl
  · rw [← hlen res hres]
    exact fits_replicate res

end

/- Every instruction: the engine keeps step with it, and its results fit, unless
the instruction is exempt. -/
theorem shadows_runs (vm : Vm) (fr : VmFrame) (ins : Bytecode) (ops : List RtValue)
    (out : Option (List RtValue)) (hr : Runs vm fr ins ops out) (resolver : PackageResolvedCache)
    (hmod : ins.NeedsTable → resolver.moduleRef fr.code.selfId fr.versionId = some fr.code)
    (c : ConcolicState) (ss srest locals : List SymbolValue) (outer : List (List SymbolValue))
    (ts trest : List TraceValue) (orest : List RtValue) (hc : c.stack = ss ++ srest)
    (hcl : c.locals = locals :: outer) (hss : List.Forall₂ (Fits I U vm) ss ops)
    (hts : List.Forall₂ (Shows vm) ts ops) (hl : LocalsFit I U vm locals fr)
    (hsafe : ∀ res, out = some res →
      Exempt vm ins (ts ++ trest) (ops ++ orest) (res ++ orest) →
        Distrusts U c ins (ts ++ trest)) :
    Shadows I U vm fr resolver c ins (ts ++ trest) srest out := by
  have hnone : ∀ res, some ([] : List RtValue) = some res → res = [] := by
    intro res hres
    exact (Option.some.inj hres).symm
  cases hr with
  | ldU w n =>
    cases hss
    exact shadows_push _ _ .unknown _ _ hc rfl rfl (fits_unknown _)
  | ldConst idx v =>
    cases hss
    exact shadows_push _ _ .unknown _ _ hc rfl rfl (fits_unknown _)
  | ldTrue =>
    cases hss
    exact shadows_push _ _ _ _ _ hc rfl rfl (fits_prim _ _ (.bool true) rfl (.const I U 1))
  | ldFalse =>
    cases hss
    exact shadows_push _ _ _ _ _ hc rfl rfl (fits_prim _ _ (.bool false) rfl (.const I U 0))
  | nop => exact shadows_drop _ _ _ _ _ _ hc hss rfl rfl hnone
  | branch offset => exact shadows_drop _ _ _ _ _ _ hc hss rfl rfl hnone
  | pop r => exact shadows_drop _ _ _ _ _ _ hc hss rfl rfl hnone
  | brTrue offset b => exact shadows_drop _ _ _ _ _ _ hc hss rfl rfl hnone
  | brFalse offset b => exact shadows_drop _ _ _ _ _ _ hc hss rfl rfl hnone
  | variantSwitch idx m l => exact shadows_drop _ _ _ _ _ _ hc hss rfl rfl hnone
  | abort n => exact shadows_drop _ _ _ _ _ _ hc hss rfl rfl fun _ h => (by cases h)
  | castU w v n =>
    obtain ⟨s, rfl, hs⟩ := forall₂_single hss
    exact shadows_cast w v n s srest _ hc hs
  | arith op w a b =>
    obtain ⟨sr, sl, rfl, hfr, hfl⟩ := forall₂_pair hss
    obtain ⟨tr, tl, rfl, htr, htl⟩ := forall₂_pair hts
    exact shadows_arith op w a b sl sr srest tl tr trest hc hfl hfr htl htr
  | bit op p q r hlog hpq hpr hval =>
    obtain ⟨sr, sl, rfl, hfr, hfl⟩ := forall₂_pair hss
    obtain ⟨tr, tl, rfl, htr, htl⟩ := forall₂_pair hts
    exact shadows_bit op p q r sl sr srest tl tr trest orest hpq hval hc hfl hfr htl htr
      (hsafe _ rfl)
  | shl w a s =>
    obtain ⟨sr, sl, rfl, hfr, hfl⟩ := forall₂_pair hss
    obtain ⟨tr, tl, rfl, htr, htl⟩ := forall₂_pair hts
    exact shadows_shl w a s sl sr srest tl tr trest orest hc hfl htl htr hsafe
  | shr w a s =>
    obtain ⟨sr, sl, rfl, hfr, hfl⟩ := forall₂_pair hss
    obtain ⟨tr, tl, rfl, htr, htl⟩ := forall₂_pair hts
    exact shadows_shr w a s sl sr srest tl tr trest hc hfl htr
  | not b =>
    obtain ⟨s, rfl, hs⟩ := forall₂_single hss
    obtain ⟨t, rfl, ht⟩ := forall₂_single hts
    exact shadows_not b s srest t trest hc hs ht
  | order op hne hnn w a b =>
    exact shadows_compared op _ _ _ ss srest ts trest orest (compares_order op w a b) hc hss hts
      (hsafe _ rfl)
  | eq l r b hk hb =>
    exact shadows_compared .eq l r b ss srest ts trest orest (compares_eq l r b hk hb) hc hss hts
      (hsafe _ rfl)
  | neq l r b hk hb =>
    exact shadows_compared .neq l r b ss srest ts trest orest (compares_neq l r b hk hb) hc hss hts
      (hsafe _ rfl)
  | copyLoc idx r h =>
    cases hss
    exact shadows_load _ idx _ _ r r hc locals outer rfl rfl hcl hl h rfl
  | borrowLoc m idx v h =>
    cases hss
    refine shadows_load _ idx _ _ (.val v) _ hc locals outer (by cases m <;> rfl)
      (by cases m <;> rfl) hcl hl h ?_
    simp only [Vm.primOf, Vm.denotes, Vm.readLoc, h]
  | readRef m l v h =>
    refine shadows_ref _ _ _ _ _ _ hc hss rfl rfl ?_
    simp only [Vm.primOf, Vm.denotes, h]
  | freezeRef l => exact shadows_ref _ _ _ _ _ _ hc hss rfl rfl rfl
  | writeRef l v => exact shadows_drop _ _ _ _ _ _ hc hss rfl rfl hnone
  | borrowField m g m' idx i l t fields h =>
    refine shadows_aggregate _ _ _ _ m' l _ _ hc hss h rfl (by cases m <;> cases g <;> rfl)
      (by cases m <;> cases g <;> rfl) fun res hres => ?_
    exact ⟨_, (Option.some.inj hres).symm⟩
  | vecLen sig m l vs h =>
    refine shadows_aggregate _ _ _ _ m l _ _ hc hss h rfl rfl rfl fun res hres => ?_
    unfold checked at hres
    split_ifs at hres
    exact ⟨_, (Option.some.inj hres).symm⟩
  | vecPopBack sig l vs h =>
    refine shadows_aggregate _ _ _ _ true l _ _ hc hss h rfl rfl rfl fun res hres => ?_
    obtain ⟨v, -, rfl⟩ := Option.map_eq_some_iff.mp hres
    exact ⟨_, rfl⟩
  | vecBorrow m m' sig l i vs h =>
    refine shadows_vecBorrow m m' sig _ _ _ _ (.ref m (.indexed l i)) l vs _ hc hss h
      fun res hres => ?_
    split_ifs at hres
    exact (Option.some.inj hres).symm
  | vecPushBack sig l v => exact shadows_drop _ _ _ _ _ _ hc hss rfl rfl hnone
  | vecSwap sig l i j => exact shadows_drop _ _ _ _ _ _ hc hss rfl rfl hnone
  | vecPack sig vs => exact shadows_pack _ _ _ _ vs none _ hc hss rfl rfl
  | vecUnpack sig n vs =>
    exact shadows_unpack _ _ _ _ _ n none _ hc hss rfl rfl (pushed_if_length vs n)
  | pack g idx t vs h =>
    have hm := hmod (.pack g idx)
    cases g <;> exact shadows_pack _ _ _ _ vs _ _ hc hss (lookup_eq _ _ _ hm h) rfl
  | unpack g idx t vs h =>
    have hm := hmod (.unpack g idx)
    have hlen : ∀ res, some (pushed vs) = some res → res.length = vs.length := by
      intro res hres
      rw [← Option.some.inj hres, pushed_length]
    cases g <;> exact shadows_unpack _ _ _ _ _ _ _ _ hc hss (lookup_eq _ _ _ hm h) rfl hlen
  | packVariant g idx t tag vs h =>
    have hm := hmod (.packVariant g idx)
    cases g <;> exact shadows_pack _ _ _ _ vs _ _ hc hss (lookup_eq _ _ _ hm h) rfl
  | unpackVariant g idx t tag n vs h =>
    have hm := hmod (.unpackVariant g idx)
    cases g <;> exact shadows_unpack _ _ _ _ _ _ _ _ hc hss (lookup_eq _ _ _ hm h) rfl
      (pushed_if_length vs n)
  | unpackVariantRef m g m' idx n l hit h =>
    have hm := hmod (.unpackVariantRef m g idx)
    have hlen : ∀ res, (if hit = true then
        some ((List.range n).reverse.map fun i => RtValue.ref m (.indexed l i)) else none) =
          some res → res.length = n := by
      intro res hres
      split_ifs at hres
      cases hres
      rw [List.length_map, List.length_reverse, List.length_range]
    cases m <;> cases g <;>
      exact shadows_unpack _ _ _ _ _ _ _ _ hc hss (lookup_eq _ _ _ hm h) rfl hlen

end Movy.Tracer
