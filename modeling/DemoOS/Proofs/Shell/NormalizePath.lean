import DemoOS.App.Shell
import DemoOS.Proofs.Shell.Strings
import DemoOS.Spec.Paths

/-!
# `normalize_path` keeps what its reading says

The loop rewrites a path in place: the text kept so far is in front of the `write` index, the rest
of the path behind the `read` index, and nothing that is still to be read is overwritten. The main
results are `normalizePath_of_normalized`, the text that is left, and
`normalizePath_of_outside`: once `write` is negative the next character that is stored, or the
final zero, goes in front of the array.
-/

set_option autoImplicit false

namespace DemoOS.Shell

open Support.CString DemoOS.Path

/-- The loop has kept the text `out` and still has to read `rest`. -/
structure Rewriting (path : Buffer) (read : Nat) (out rest : List UInt8) : Prop where
  /-- The kept text is at the beginning of the array. -/
  kept : path.take out.length = out
  /-- The rest of the string is where the loop reads next. -/
  unread : ∃ tail, path.drop read = rest ++ NUL :: tail
  noZero : NUL ∉ rest
  le : out.length ≤ read

section Reading

variable {path : Buffer} {read : Nat} {out rest : List UInt8} {c : UInt8}

theorem Rewriting.getElem? (h : Rewriting path read out rest) {j : Nat} (hj : j ≤ rest.length) :
    path[read + j]? = some (rest[j]?.getD NUL) := by
  obtain ⟨tail, htail⟩ := h.unread
  rw [← List.getElem?_drop, htail]
  rcases Nat.lt_or_eq_of_le hj with hlt | rfl
  · rw [List.getElem?_append_left hlt, List.getElem?_eq_getElem hlt]
    rfl
  · rw [List.getElem?_append_right (Nat.le_refl _), Nat.sub_self,
      List.getElem?_eq_none (Nat.le_refl _)]
    rfl

theorem Rewriting.lt_length (h : Rewriting path read out rest) :
    read + rest.length < path.length := by
  obtain ⟨tail, htail⟩ := h.unread
  have hlen := congrArg List.length htail
  rw [List.length_drop, List.length_append, List.length_cons] at hlen
  omega

/-- The loop sees the end of a component where the rest has one. -/
theorem Rewriting.endsAt_iff (h : Rewriting path read out rest) {j : Nat} (hj : j ≤ rest.length) :
    endsAt path (read + j) ↔ AtEnd (rest.drop j) := by
  rw [endsAt, h.getElem? hj, AtEnd, List.head?_drop]
  cases hc : rest[j]? with
  | none =>
      show some NUL = some SLASH ∨ some NUL = some NUL ↔ none = none ∨ none = some SLASH
      simp
  | some c =>
      have hne : c ≠ NUL := fun hz => h.noZero (hz ▸ List.mem_of_getElem? hc)
      show some c = some SLASH ∨ some c = some NUL ↔ some c = none ∨ some c = some SLASH
      simp [hne]

/-- Reading on. -/
theorem Rewriting.skip (h : Rewriting path read out rest) {j : Nat} (hj : j ≤ rest.length)
    {out' : List UInt8} (hfront : out' <+: out) : Rewriting path (read + j) out' (rest.drop j) := by
  obtain ⟨tail, htail⟩ := h.unread
  have hle := hfront.length_le
  refine ⟨?_, ⟨tail, ?_⟩, fun hz => h.noZero (List.mem_of_mem_drop hz), by have := h.le; omega⟩
  · rw [← Nat.min_eq_left hle, ← List.take_take, h.kept]
    exact (List.prefix_iff_eq_take.mp hfront).symm
  · rw [← List.drop_drop, htail, List.drop_append_of_le_length hj]

/-- Keeping the next character. -/
theorem Rewriting.put (h : Rewriting path read out (c :: rest)) :
    ∃ path', put path out.length c = some path' ∧ Rewriting path' (read + 1) (out ++ [c]) rest
      ∧ path'.length = path.length ∧ ∀ k, read < k → path'.drop k = path.drop k := by
  have hlt := h.lt_length
  have hle := h.le
  rw [List.length_cons] at hlt
  have hone : out.length + [c].length ≤ path.length := by
    rw [List.length_singleton]
    omega
  have hbehind : ∀ k, read < k → (overwrite path out.length [c]).drop k = path.drop k := by
    intro k hk
    apply drop_overwrite hone
    rw [List.length_singleton]
    omega
  obtain ⟨tail, htail⟩ := h.unread
  refine ⟨_, put_of_lt (by omega) c, ⟨?_, ⟨tail, ?_⟩, ?_, ?_⟩, length_overwrite hone, hbehind⟩
  · rw [List.length_append, take_overwrite hone, h.kept]
  · rw [hbehind (read + 1) (Nat.lt_succ_self read), ← List.drop_drop, htail]
    rfl
  · exact fun hz => h.noZero (List.mem_cons_of_mem c hz)
  · rw [List.length_append, List.length_singleton]
    omega

end Reading

section Parents

variable {path : Buffer}

/-- The inner loop finds the text in front of the last component. -/
theorem backUp_eq {write : Nat} (h : write ≤ path.length) :
    backUp path write = ((path.take write).rdropWhile (· ≠ SLASH)).length := by
  induction write with
  | zero => rfl
  | succ w ih =>
      have hw : w < path.length := by omega
      rw [List.take_succ_eq_append_getElem hw, backUp, List.getElem?_eq_getElem hw]
      by_cases hc : path[w] = SLASH
      · rw [if_pos (congrArg some hc), List.rdropWhile_concat_neg _ _ _ (by simp [hc]),
          List.length_append, List.length_take, List.length_singleton]
        omega
      · rw [if_neg (fun hs => hc (Option.some.inj hs)),
          List.rdropWhile_concat_pos _ _ _ (by simp [hc]), ih (by omega)]

theorem parent_front (out : List UInt8) : parent out <+: out :=
  (List.rdropWhile_prefix _ _).trans (List.dropLast_prefix out)

/-- Going back from a text that is not empty. -/
theorem write_parent {read : Nat} {out rest : List UInt8} (h : Rewriting path read out rest)
    (hne : out ≠ []) :
    (if (out.length : Int) - 1 > 0 then (backUp path ((out.length : Int) - 1).toNat : Int)
      else (out.length : Int) - 1) = (parent out).length := by
  have hpos : 0 < out.length := List.length_pos_of_ne_nil hne
  have hlt := h.lt_length
  have hle := h.le
  have hpred : ((out.length : Int) - 1).toNat = out.length - 1 := by omega
  have htake : path.take (out.length - 1) = out.dropLast := by
    rw [List.dropLast_eq_take, ← h.kept, List.take_take, h.kept, Nat.min_eq_left (Nat.sub_le ..)]
  have hback : backUp path (out.length - 1) = (parent out).length := by
    rw [backUp_eq (by omega), htake]
    rfl
  rw [hpred, hback]
  split
  · rfl
  · have hlen := congrArg List.length htake
    have hparent := (List.rdropWhile_prefix (· ≠ SLASH) out.dropLast).length_le
    rw [List.length_dropLast] at hparent
    show _ = ((parent out).length : Int)
    have hp : (parent out).length ≤ out.length - 1 := hparent
    omega

end Parents

section Rounds

variable {path : Buffer} {read : Nat} {out rest : List UInt8} {c : UInt8}

/-- Behind a component that ends here, the loop skips the slash as the reading does. -/
theorem Rewriting.skipEnd (h : Rewriting path read out rest) (hend : AtEnd rest)
    {out' : List UInt8} (hfront : out' <+: out) :
    Rewriting path (read + if path[read]? = some SLASH then 1 else 0) out' rest.tail
      ∧ (read + if path[read]? = some SLASH then 1 else 0) + rest.tail.length
        = read + rest.length := by
  have hget : path[read + 0]? = some (rest[0]?.getD NUL) := h.getElem? (Nat.zero_le _)
  rw [Nat.add_zero] at hget
  cases rest with
  | nil =>
      have hno : path[read]? ≠ some SLASH := by
        rw [hget]
        decide
      rw [if_neg hno]
      exact ⟨h.skip (Nat.le_refl 0) hfront, rfl⟩
  | cons a rest =>
      have ha : a = SLASH := by
        rcases hend with hnone | hsome
        · exact nomatch hnone
        · exact Option.some.inj hsome
      have hyes : path[read]? = some SLASH := by
        rw [hget, ha]
        rfl
      rw [if_pos hyes]
      have hone : 1 ≤ (a :: rest).length := Nat.succ_le_of_lt (Nat.zero_lt_succ _)
      refine ⟨h.skip hone hfront, ?_⟩
      rw [List.tail_cons, List.length_cons]
      omega

/-- The end of the string. -/
theorem normalizeLoop_nil (h : Rewriting path read out []) (fuel : Nat) (write : Int) :
    normalizeLoop (fuel + 1) path read write = some (path, write) := by
  have hget : path[read + 0]? = some NUL := h.getElem? (Nat.le_refl 0)
  rw [Nat.add_zero] at hget
  rw [normalizeLoop, hget]
  rfl

section Cons

variable (h : Rewriting path read out (c :: rest))
include h

/-- The character at the `read` index. -/
theorem Rewriting.head : path[read]? = some c ∧ c ≠ NUL := by
  have hget : path[read + 0]? = some c := h.getElem? (Nat.zero_le _)
  exact ⟨hget, fun hz => h.noZero (hz ▸ List.mem_cons_self)⟩

/-- A dot that a component ends with. -/
theorem normalizeLoop_dot (hc : c = DOT ∧ AtEnd rest) {out' : List UInt8}
    (hfront : out' <+: out) :
    ∃ read', Rewriting path read' out' rest.tail
      ∧ read' + rest.tail.length = read + (c :: rest).length
      ∧ ∀ fuel write,
        normalizeLoop (fuel + 1) path read write = normalizeLoop fuel path read' write := by
  have hone : 1 ≤ (c :: rest).length := Nat.succ_le_of_lt (Nat.zero_lt_succ _)
  obtain ⟨hget, hne⟩ := h.head
  have hend : endsAt path (read + 1) := (h.endsAt_iff hone).mpr hc.2
  obtain ⟨hskip, hlen⟩ := (h.skip hone (List.prefix_refl out)).skipEnd hc.2 hfront
  refine ⟨_, hskip, ?_, ?_⟩
  · rw [List.length_cons]
    have hlen : _ + rest.tail.length = read + 1 + rest.length := hlen
    omega
  · intro fuel write
    rw [normalizeLoop, hget]
    show (if c = NUL then _ else _) = _
    rw [if_neg hne, if_pos ⟨hc.1, hend⟩]
    congr 1
    split <;> rfl

/-- Two dots that a component ends with. -/
theorem normalizeLoop_parent (hdot : ¬ (c = DOT ∧ AtEnd rest))
    (hc : c = DOT ∧ rest.head? = some DOT ∧ AtEnd rest.tail) {out' : List UInt8}
    (hfront : out' <+: out) :
    ∃ read', Rewriting path read' out' rest.tail.tail
      ∧ read' + rest.tail.tail.length = read + (c :: rest).length
      ∧ ∀ fuel (write : Int), normalizeLoop (fuel + 1) path read write
        = normalizeLoop fuel path read'
            (if write - 1 > 0 then backUp path (write - 1).toNat else write - 1) := by
  obtain ⟨hfirst, hsecond, hatEnd⟩ := hc
  obtain ⟨rest, rfl⟩ : ∃ t, rest = DOT :: t := by
    cases rest with
    | nil => exact nomatch hsecond
    | cons a t => exact ⟨t, by rw [Option.some.inj hsecond]⟩
  have htwo : 2 ≤ (c :: DOT :: rest).length := by
    rw [List.length_cons, List.length_cons]
    omega
  obtain ⟨hget, hne⟩ := h.head
  have hget₁ : path[read + 1]? = some DOT := h.getElem? (by omega)
  have hend₁ : ¬ (c = DOT ∧ endsAt path (read + 1)) := by
    rintro ⟨-, hend⟩
    exact hdot ⟨hfirst, (h.endsAt_iff (by omega)).mp hend⟩
  have hend₂ : endsAt path (read + 2) := (h.endsAt_iff htwo).mpr hatEnd
  obtain ⟨hskip, hlen⟩ := (h.skip htwo (List.prefix_refl out)).skipEnd hatEnd hfront
  refine ⟨_, hskip, ?_, ?_⟩
  · have hlen : _ + rest.tail.length = read + 2 + rest.length := hlen
    rw [List.length_cons, List.length_cons, List.tail_cons]
    omega
  · intro fuel write
    rw [normalizeLoop, hget]
    show (if c = NUL then _ else _) = _
    rw [if_neg hne, if_neg hend₁, if_pos ⟨hfirst, hget₁, hend₂⟩]
    split <;> rfl

/-- Any other character. -/
theorem normalizeLoop_char (hdot : ¬ (c = DOT ∧ AtEnd rest))
    (hparent : ¬ (c = DOT ∧ rest.head? = some DOT ∧ AtEnd rest.tail)) (fuel : Nat) (write : Int) :
    normalizeLoop (fuel + 1) path read write
      = (putAt path write c).bind fun path => normalizeLoop fuel path (read + 1) (write + 1) := by
  obtain ⟨hget, hne⟩ := h.head
  have hone : 1 ≤ (c :: rest).length := Nat.succ_le_of_lt (Nat.zero_lt_succ _)
  have hend₁ : ¬ (c = DOT ∧ endsAt path (read + 1)) := by
    rintro ⟨hc, hend⟩
    exact hdot ⟨hc, (h.endsAt_iff hone).mp hend⟩
  have hend₂ : ¬ (c = DOT ∧ path[read + 1]? = some DOT ∧ endsAt path (read + 2)) := by
    rintro ⟨hc, hsecond, hend⟩
    rw [h.getElem? hone] at hsecond
    cases rest with
    | nil => exact absurd (Option.some.inj hsecond) (show NUL ≠ DOT by decide)
    | cons a t =>
        have htwo : 2 ≤ (c :: a :: t).length := by
          rw [List.length_cons, List.length_cons]
          omega
        exact hparent ⟨hc, hsecond, (h.endsAt_iff htwo).mp hend⟩
  rw [normalizeLoop, hget]
  show (if c = NUL then _ else _) = _
  rw [if_neg hne, if_neg hend₁, if_neg hend₂]
  rfl

end Cons

end Rounds

section Runs

variable {path : Buffer} {read : Nat} {out rest : List UInt8}

/-- The loop ends with the kept text in front of its `write` index, if the reading keeps one. The
array behind the string is as it was. -/
theorem normalizeLoop_keeps {fuel : Nat} (h : Rewriting path read out rest)
    (hfuel : rest.length < fuel) {r : List UInt8} (hr : (readPath rest).foldlM keep out = some r) :
    ∃ path' : Buffer, normalizeLoop fuel path read out.length = some (path', (r.length : Int))
      ∧ path'.take r.length = r ∧ r.length ≤ read + rest.length ∧ path'.length = path.length
      ∧ path'.drop (read + rest.length) = path.drop (read + rest.length) := by
  -- The rounds of the loop are the steps of the reading.
  induction rest using readPath.induct generalizing path read out fuel with
  | case1 =>
      obtain ⟨fuel, rfl⟩ := Nat.exists_eq_add_one_of_ne_zero (Nat.ne_of_gt hfuel)
      rw [readPath] at hr
      obtain rfl : out = r := Option.some.inj hr
      exact ⟨path, normalizeLoop_nil h fuel _, h.kept, h.le, rfl, rfl⟩
  | case2 c rest hdot ih =>
      obtain ⟨fuel, rfl⟩ := Nat.exists_eq_add_one_of_ne_zero (Nat.ne_zero_of_lt hfuel)
      rw [readPath, if_pos hdot] at hr
      obtain ⟨read', h', hread, hround⟩ := normalizeLoop_dot h hdot (List.prefix_refl out)
      rw [hround, ← hread]
      rw [List.length_cons] at hfuel
      apply ih h' _ hr
      rw [List.length_tail]
      omega
  | case3 c rest hdot hparent ih =>
      obtain ⟨fuel, rfl⟩ := Nat.exists_eq_add_one_of_ne_zero (Nat.ne_zero_of_lt hfuel)
      rw [readPath, if_neg hdot, if_pos hparent, List.foldlM_cons] at hr
      obtain ⟨out', hkeep, hr⟩ := Option.bind_eq_some_iff.mp hr
      have hne : out ≠ [] := by
        rintro rfl
        exact nomatch hkeep
      obtain rfl : parent out = out' := Option.some.inj ((if_neg hne).symm.trans hkeep)
      obtain ⟨read', h', hread, hround⟩ :=
        normalizeLoop_parent h hdot hparent (parent_front out)
      rw [hround, write_parent h hne, ← hread]
      rw [List.length_cons] at hfuel
      apply ih h' _ hr
      rw [List.length_tail, List.length_tail]
      omega
  | case4 c rest hdot hparent ih =>
      obtain ⟨fuel, rfl⟩ := Nat.exists_eq_add_one_of_ne_zero (Nat.ne_zero_of_lt hfuel)
      rw [readPath, if_neg hdot, if_neg hparent, List.foldlM_cons] at hr
      obtain ⟨path₁, hput, h₁, hlen₁, hbehind⟩ := h.put
      rw [List.length_cons] at hfuel
      obtain ⟨path', hrun, htake, hle, hlen, hdrop⟩ := ih h₁ (Nat.lt_of_succ_lt_succ hfuel) hr
      have hread : read + 1 + rest.length = read + (c :: rest).length := by
        rw [List.length_cons]
        omega
      rw [hread] at hle hdrop
      rw [List.length_append, List.length_singleton] at hrun
      refine ⟨path', ?_, htake, hle, hlen.trans hlen₁, hdrop.trans (hbehind _ ?_)⟩
      · rw [normalizeLoop_char h hdot hparent]
        show (put path out.length c).bind _ = _
        rw [hput]
        exact hrun
      · rw [List.length_cons]
        omega

/-- With a negative `write` index the loop stores nothing, and the index stays negative. -/
theorem normalizeLoop_negative {fuel : Nat} {write : Int} (h : Rewriting path read [] rest)
    (hwrite : write < 0) {path' : Buffer} {write' : Int}
    (hrun : normalizeLoop fuel path read write = some (path', write')) : write' < 0 := by
  induction rest using readPath.induct generalizing read fuel write with
  | case1 =>
      cases fuel with
      | zero => exact nomatch hrun
      | succ fuel =>
          rw [normalizeLoop_nil h] at hrun
          obtain rfl : write = write' := congrArg Prod.snd (Option.some.inj hrun)
          exact hwrite
  | case2 c rest hdot ih =>
      cases fuel with
      | zero => exact nomatch hrun
      | succ fuel =>
          obtain ⟨read', h', -, hround⟩ := normalizeLoop_dot h hdot (List.prefix_refl [])
          rw [hround] at hrun
          exact ih h' hwrite hrun
  | case3 c rest hdot hparent ih =>
      cases fuel with
      | zero => exact nomatch hrun
      | succ fuel =>
          obtain ⟨read', h', -, hround⟩ :=
            normalizeLoop_parent h hdot hparent (List.prefix_refl [])
          rw [hround, if_neg (by omega)] at hrun
          exact ih h' (by omega) hrun
  | case4 c rest hdot hparent ih =>
      cases fuel with
      | zero => exact nomatch hrun
      | succ fuel =>
          rw [normalizeLoop_char h hdot hparent] at hrun
          cases write with
          | ofNat w => exact absurd hwrite (Int.not_lt.mpr (Int.natCast_nonneg w))
          | negSucc w => exact nomatch hrun

/-- If the reading keeps no text, the `write` index of the loop becomes negative. -/
theorem normalizeLoop_outside {fuel : Nat} (h : Rewriting path read out rest)
    (hr : (readPath rest).foldlM keep out = none) {path' : Buffer} {write' : Int}
    (hrun : normalizeLoop fuel path read out.length = some (path', write')) : write' < 0 := by
  induction rest using readPath.induct generalizing path read out fuel with
  | case1 =>
      rw [readPath] at hr
      exact nomatch hr
  | case2 c rest hdot ih =>
      cases fuel with
      | zero => exact nomatch hrun
      | succ fuel =>
          rw [readPath, if_pos hdot] at hr
          obtain ⟨read', h', -, hround⟩ := normalizeLoop_dot h hdot (List.prefix_refl out)
          rw [hround] at hrun
          exact ih h' hr hrun
  | case3 c rest hdot hparent ih =>
      cases fuel with
      | zero => exact nomatch hrun
      | succ fuel =>
          rw [readPath, if_neg hdot, if_pos hparent, List.foldlM_cons] at hr
          obtain ⟨read', h', -, hround⟩ :=
            normalizeLoop_parent h hdot hparent (parent_front out)
          rw [hround] at hrun
          by_cases hne : out = []
          · -- There is nothing to go back over.
            subst hne
            rw [List.length_nil, if_neg (by decide)] at hrun
            exact normalizeLoop_negative h' (by decide) hrun
          · rw [write_parent h hne] at hrun
            rw [keep, if_neg hne] at hr
            exact ih h' hr hrun
  | case4 c rest hdot hparent ih =>
      cases fuel with
      | zero => exact nomatch hrun
      | succ fuel =>
          rw [readPath, if_neg hdot, if_neg hparent, List.foldlM_cons] at hr
          obtain ⟨path₁, hput, h₁, -, -⟩ := h.put
          rw [normalizeLoop_char h hdot hparent] at hrun
          replace hrun : (put path out.length c).bind _ = _ := hrun
          rw [hput] at hrun
          have hlen : ((out ++ [c]).length : Int) = out.length + 1 := by
            rw [List.length_append, List.length_singleton]
            rfl
          rw [Option.bind_some, ← hlen] at hrun
          exact ih h₁ hr hrun

end Runs

section Results

variable {path : Buffer} {s r : List UInt8}

/-- Every character that is read is in the path. -/
theorem mem_of_readPath {c : UInt8} (h : Token.char c ∈ readPath s) : c ∈ s := by
  induction s using readPath.induct with
  | case1 =>
      rw [readPath] at h
      exact nomatch h
  | case2 a rest hdot ih =>
      rw [readPath, if_pos hdot] at h
      exact List.mem_cons_of_mem a (List.mem_of_mem_tail (ih h))
  | case3 a rest hdot hparent ih =>
      rw [readPath, if_neg hdot, if_pos hparent, List.mem_cons] at h
      have hmem := ih (h.resolve_left (nomatch ·))
      exact List.mem_cons_of_mem a (List.mem_of_mem_tail (List.mem_of_mem_tail hmem))
  | case4 a rest hdot hparent ih =>
      rw [readPath, if_neg hdot, if_neg hparent, List.mem_cons] at h
      rcases h with hc | hmem
      · rw [Token.char.inj hc]
        exact List.mem_cons_self
      · exact List.mem_cons_of_mem a (ih hmem)

/-- Only characters of the path are kept. -/
theorem mem_of_keep {ts : List Token} {out : List UInt8} (h : ts.foldlM keep out = some r)
    {c : UInt8} (hc : c ∈ r) : c ∈ out ∨ Token.char c ∈ ts := by
  induction ts generalizing out with
  | nil =>
      obtain rfl : out = r := Option.some.inj h
      exact Or.inl hc
  | cons t ts ih =>
      rw [List.foldlM_cons] at h
      obtain ⟨out', hkeep, h⟩ := Option.bind_eq_some_iff.mp h
      rcases ih h with hout | hts
      · cases t with
        | parent =>
            rw [keep] at hkeep
            split at hkeep
            · exact nomatch hkeep
            · obtain rfl := Option.some.inj hkeep
              exact Or.inl ((parent_front out).subset hout)
        | char a =>
            obtain rfl : out ++ [a] = out' := Option.some.inj hkeep
            rcases List.mem_append.mp hout with hold | hnew
            · exact Or.inl hold
            · rw [List.mem_singleton.mp hnew]
              exact Or.inr List.mem_cons_self
      · exact Or.inr (List.mem_cons_of_mem t hts)

theorem normalized_noZero (hs : NUL ∉ s) (hr : normalized s = some r) : NUL ∉ r := by
  intro hz
  rcases mem_of_keep hr hz with hnil | hread
  · exact nomatch hnil
  · exact hs (mem_of_readPath hread)

/-- The loop of `normalize_path` starts with nothing kept. -/
theorem Rewriting.start (h : Holds path s) : Rewriting path 0 [] s where
  kept := rfl
  unread := by
    obtain ⟨tail, htail⟩ := h.terminated
    exact ⟨tail, by rw [List.drop_zero, htail]⟩
  noZero := h.noZero
  le := Nat.le_refl 0

/-- What the loop leaves, and the zero behind it. -/
theorem normalizePath_eq (h : Holds path s) (hr : normalized s = some r) :
    ∃ path₁ : Buffer, path₁.take r.length = r ∧ r.length ≤ s.length
      ∧ path₁.length = path.length ∧ path₁.drop s.length = path.drop s.length
      ∧ normalizePath path
        = if r = [] then (put (overwrite path₁ 0 [NUL]) 0 SLASH).bind fun path => put path 1 NUL
          else some (overwrite path₁ r.length [NUL]) := by
  have hlt := h.length_lt
  have hfuel : s.length < path.length + 1 := by omega
  obtain ⟨path₁, hrun, htake, hle, hlen, hdrop⟩ :=
    normalizeLoop_keeps (Rewriting.start h) hfuel hr
  rw [Nat.zero_add] at hle hdrop
  refine ⟨path₁, htake, hle, hlen, hdrop, ?_⟩
  have hput : put path₁ r.length NUL = some (overwrite path₁ r.length [NUL]) :=
    put_of_lt (by omega) NUL
  have hloop : normalizeLoop (path.length + 1) path 0 0 = some (path₁, (r.length : Int)) := hrun
  rw [normalizePath, hloop]
  show (put path₁ r.length NUL).bind _ = _
  rw [hput, Option.bind_some]
  cases r with
  | nil => rfl
  | cons c r =>
      have hne : ((c :: r).length : Int) ≠ 0 := by
        rw [List.length_cons]
        omega
      rw [if_neg hne, if_neg (List.cons_ne_nil c r)]

/-- `normalize_path` leaves the text that the reading keeps, or the root if it keeps nothing. -/
theorem normalizePath_of_normalized (h : Holds path s) (hr : normalized s = some r)
    (hlen : 2 ≤ path.length) :
    ∃ path', normalizePath path = some path' ∧ Holds path' (if r = [] then [SLASH] else r)
      ∧ path'.length = path.length := by
  obtain ⟨path₁, htake, hle, hlen₁, -, hrun⟩ := normalizePath_eq h hr
  have hlt := h.length_lt
  rw [hrun]
  by_cases hnil : r = []
  · subst hnil
    have hzero : 0 + [NUL].length ≤ path₁.length := by
      rw [List.length_singleton]
      omega
    have hlen₂ := length_overwrite hzero
    have hslash : 0 + [SLASH].length ≤ (overwrite path₁ 0 [NUL]).length := by
      rw [List.length_singleton, hlen₂]
      omega
    have hlen₃ := length_overwrite hslash
    have hone : 1 + [NUL].length ≤ (overwrite (overwrite path₁ 0 [NUL]) 0 [SLASH]).length := by
      rw [List.length_singleton, hlen₃, hlen₂]
      omega
    rw [if_pos rfl, if_pos rfl, put_of_lt (by omega), Option.bind_some, put_of_lt (by omega)]
    refine ⟨_, rfl, ?_, (length_overwrite hone).trans (hlen₃.trans (hlen₂.trans hlen₁))⟩
    have hroot : (overwrite (overwrite path₁ 0 [NUL]) 0 [SLASH]).take 1 = [SLASH] :=
      take_overwrite hslash
    exact Holds.overwrite (s := []) hroot (by decide) List.not_mem_nil
  · have hfits : r.length + [NUL].length ≤ path₁.length := by
      rw [List.length_singleton]
      omega
    rw [if_neg hnil, if_neg hnil]
    refine ⟨_, rfl, ?_, (length_overwrite hfits).trans hlen₁⟩
    have hholds := Holds.overwrite (s := []) htake (normalized_noZero h.noZero hr)
      List.not_mem_nil
    rwa [List.append_nil] at hholds

/-- A path that is kept as it is stays in the array as it is. -/
theorem normalizePath_fixed (h : Holds path s) (hs : normalized s = some s) (hne : s ≠ []) :
    normalizePath path = some path := by
  obtain ⟨path₁, htake, -, -, hdrop, hrun⟩ := normalizePath_eq h hs
  obtain ⟨rest, hrest⟩ := h.terminated
  have hsame : path₁ = path := by
    rw [← List.take_append_drop s.length path₁, htake, hdrop, hrest, List.drop_left]
  rw [hrun, if_neg hne, hsame, overwrite, hrest, List.take_left, List.append_assoc,
    List.length_singleton, ← List.drop_drop, List.drop_left]
  rfl

/-- If the reading keeps nothing, `normalize_path` writes in front of the array. -/
theorem normalizePath_of_outside (h : Holds path s) (hr : normalized s = none) :
    normalizePath path = none := by
  rw [normalizePath]
  cases hrun : normalizeLoop (path.length + 1) path 0 0 with
  | none => rfl
  | some result =>
      obtain ⟨path', write'⟩ := result
      have hneg : write' < 0 := normalizeLoop_outside (Rewriting.start h) hr hrun
      cases write' with
      | ofNat w => exact absurd hneg (Int.not_lt.mpr (Int.natCast_nonneg w))
      | negSucc w => rfl

end Results

end DemoOS.Shell
