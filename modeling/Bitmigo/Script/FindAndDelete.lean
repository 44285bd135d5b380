import Bitmigo.Script.Interpreter
import Mathlib.Data.List.TakeWhile

/-
  Deleting an encoded push from a script drops the operations that are that push.

  Key theorems include:
    * `skipPattern_eq` and `findAndDeleteLoop_eq`, the walk over the bytes in terms of operations
    * `findAndDelete_eq` and `findAndDelete_exact`
    * `multisigScriptCode_eq`, the code a multisig signs
-/

namespace Bitmigo

open Result List

--------
-- The Walk
--------

/- A copy of the pattern at the cursor. -/
theorem skipPattern_hit (front rest pattern : Bytes) (fuel found : Nat) :
    skipPattern (front ++ (pattern ++ rest)) pattern (fuel + 1) front.length found =
      skipPattern (front ++ (pattern ++ rest)) pattern fuel
        (front ++ pattern).length (found + 1) := by
  have hRange := getRange?_append front pattern rest
  rw [append_assoc, length_append] at hRange
  rw [skipPattern, if_pos ⟨by simp, hRange⟩, length_append]

theorem skipPattern_miss {front rest pattern : Bytes} (hMiss : ¬ pattern <+: rest)
    (fuel found : Nat) :
    skipPattern (front ++ rest) pattern fuel front.length found = (front.length, found) := by
  cases fuel with
  | zero => rfl
  | succ fuel =>
    rw [skipPattern, if_neg]
    rintro ⟨_, hRange⟩
    rcases getRange?_eq_some.mp hRange with ⟨_, _, hEq⟩
    apply hMiss
    rw [drop_take, Nat.add_sub_cancel_left, drop_left] at hEq
    rw [← hEq]
    exact take_prefix _ _

variable {pattern tail : Bytes}

/- The copies skipped are whole operations. -/
theorem skipPattern_eq (hPattern : opLexer.IsChunk pattern) (hTail : opLexer.IsRest tail)
    {ops : List Bytes} (hOps : ∀ op ∈ ops, opLexer.IsChunk op) {fuel : Nat}
    (hFuel : ops.length ≤ fuel) (front : Bytes) (found : Nat) :
    skipPattern (front ++ (ops.flatten ++ tail)) pattern fuel front.length found =
      ((front ++ (ops.takeWhile (· = pattern)).flatten).length,
        found + (ops.takeWhile (· = pattern)).length) := by
  induction ops generalizing fuel front found with
  | nil =>
    rw [flatten_nil, nil_append, skipPattern_miss (hTail.not_starts hPattern)]
    simp
  | cons op ops ih =>
    rcases forall_mem_cons.mp hOps with ⟨hOp, hRest⟩
    rw [flatten_cons, append_assoc]
    by_cases hEq : op = pattern
    · subst hEq
      cases fuel with
      | zero => simp at hFuel
      | succ fuel =>
        rw [length_cons] at hFuel
        have hNext := ih hRest (by omega : ops.length ≤ fuel) (front ++ op) (found + 1)
        rw [append_assoc] at hNext
        rw [skipPattern_hit, hNext]
        simp
        omega
    · rw [skipPattern_miss]
      · simp [hEq]
      · intro hStarts
        exact hEq ((hOp.starts_iff hPattern).mp hStarts).symm

/- The operations up to the first that is not the pattern. -/
theorem operations_split (pattern : Bytes) (ops : List Bytes) :
    ∃ copies more, ops = copies ++ more ∧ ops.takeWhile (· = pattern) = copies ∧
      copies.filter (· ≠ pattern) = [] ∧ copies.count pattern = copies.length ∧
      (more = [] ∨ ∃ op rest, more = op :: rest ∧ op ≠ pattern) := by
  refine ⟨ops.takeWhile (· = pattern),
    ops.dropWhile (· = pattern), takeWhile_append_dropWhile.symm, rfl, ?_, ?_, ?_⟩
  · rw [filter_eq_nil_iff]
    intro op hMem
    simpa using mem_takeWhile_imp hMem
  · rw [count_eq_length]
    intro op hMem
    have hEq := mem_takeWhile_imp hMem
    exact (of_decide_eq_true hEq).symm
  · cases hMore : ops.dropWhile (· = pattern) with
    | nil => exact .inl rfl
    | cons op rest =>
      have hHead := head?_dropWhile_not (fun op => decide (op = pattern)) ops
      rw [hMore] at hHead
      exact .inr ⟨op, rest, rfl, by simpa using hHead⟩

/-
  What the walk copies, and what it leaves to be copied, are the operations that are not the pattern
  and the tail. One iteration takes the copies of the pattern ahead and one operation that is none.
-/
theorem findAndDeleteLoop_eq (hPattern : opLexer.IsChunk pattern) (hTail : opLexer.IsRest tail)
    {fuel : Nat} {ops : List Bytes} (hOps : ∀ op ∈ ops, opLexer.IsChunk op)
    (hFuel : ops.length < fuel) {script : Bytes} {front copied : Bytes}
    (hScript : script = front ++ copied ++ (ops.flatten ++ tail)) (result : Bytes) (found : Nat) :
    ∃ done pc,
      findAndDeleteLoop script pattern fuel result found (front ++ copied).length front.length =
        .ok (done, found + ops.count pattern, pc) ∧ pc ≤ script.length ∧ done ++ script.drop pc =
        result ++ copied ++ ((ops.filter (· ≠ pattern)).flatten ++ tail) := by
  induction fuel generalizing ops front copied result found with
  | zero => omega
  | succ fuel ih =>
    have hRange := getRange?_append front copied (ops.flatten ++ tail)
    rw [← hScript] at hRange
    have hLong : ops.length ≤ script.length := by
      have hLe := Lexer.length_le_of_chunks hOps tail
      rw [hScript, length_append]
      omega
    have hSkip := skipPattern_eq hPattern hTail hOps hLong (front ++ copied) found
    rw [← hScript] at hSkip
    rcases operations_split pattern ops with ⟨copies, more, rfl, hCopies, hNone, hAll, hMore⟩
    rw [hCopies] at hSkip
    rw [flatten_append] at hScript
    have hAhead : script = (front ++ copied ++ copies.flatten) ++ (more.flatten ++ tail) := by
      rw [hScript]
      simp
    rw [findAndDeleteLoop, hRange, expect_some, ok_bind, hSkip]
    dsimp only
    rw [filter_append, hNone, nil_append, count_append, hAll]
    rcases hMore with rfl | ⟨op, rest, rfl, hOther⟩
    · -- nothing but the tail is left
      rw [flatten_nil, nil_append] at hAhead
      refine ⟨result ++ copied, (front ++ copied ++ copies.flatten).length, ?_, ?_, ?_⟩
      · by_cases hEnd : script.length ≤ (front ++ copied ++ copies.flatten).length
        · rw [if_pos hEnd]
          simp
        · have hNe : tail ≠ [] := by
            rintro rfl
            rw [hAhead, append_nil] at hEnd
            exact hEnd (Nat.le_refl _)
          rcases readOp_of_isRest hTail hNe (front ++ copied ++ copies.flatten) with
            ⟨next, _, _, _, hRead⟩
          rw [← hAhead] at hRead
          rw [if_neg hEnd, hRead, ok_bind]
          simp
      · rw [hAhead]
        exact (prefix_append _ _).length_le
      · rw [hAhead, drop_left]
        simp
    · -- one more operation is copied
      have hOp : opLexer.IsChunk op := hOps op (by simp)
      rcases readOp_of_isChunk hOp (front ++ copied ++ copies.flatten) (rest.flatten ++ tail) with
        ⟨byte, _, hForward, hInside, hRead⟩
      rw [flatten_cons, append_assoc op] at hAhead
      rw [← hAhead] at hRead hInside
      rw [if_neg (by omega), hRead, ok_bind]
      dsimp only
      have hRest : ∀ other ∈ rest, opLexer.IsChunk other := by
        intro other hMem
        exact hOps other (by simp [hMem])
      have hShort : rest.length < fuel := by
        simp only [length_append, length_cons] at hFuel
        omega
      rcases ih hRest hShort (hAhead.trans (append_assoc _ _ _).symm)
          (result ++ copied) (found + copies.length) with
        ⟨done, pc, hLoop, hPc, hDone⟩
      refine ⟨done, pc, ?_, hPc, ?_⟩
      · rw [hLoop, count_cons_of_ne hOther, Nat.add_assoc]
      · rw [hDone, filter_cons_of_pos (by simpa), flatten_cons]
        simp only [append_assoc]

/- Deleting an operation drops every copy of it. -/
theorem findAndDelete_eq (hPattern : opLexer.IsChunk pattern) (script : Bytes) :
    findAndDelete script pattern =
      .ok (opLexer.keep (· ≠ pattern) script, (operations script).count pattern) := by
  have hScript := opLexer.flatten_chunks script
  have hOps : ∀ op ∈ operations script, opLexer.IsChunk op :=
    fun _ hMem => opLexer.isChunk_of_mem hMem
  have hCount : (operations script).length < script.length + 1 := by
    have hLe := Lexer.length_le_of_chunks hOps (truncatedTail script)
    rw [hScript] at hLe
    omega
  rcases findAndDeleteLoop_eq hPattern (opLexer.isRest_rest script) hOps hCount
      (show script = [] ++ [] ++ _ from hScript.symm) [] 0 with
    ⟨done, pc, hLoop, hPc, hDone⟩
  rw [nil_append, length_nil, Nat.zero_add] at hLoop
  rw [findAndDelete, if_neg (by simpa using hPattern.ne_nil), hLoop, ok_bind]
  dsimp only
  by_cases hNone : (operations script).count pattern = 0
  · have hSame : opLexer.keep (· ≠ pattern) script = script := by
      apply Lexer.keep_eq_self
      intro op hMem
      simp only [ne_eq, decide_not, Bool.not_eq_true', decide_eq_false_iff_not]
      rintro rfl
      exact count_eq_zero.mp hNone hMem
    rw [if_pos hNone, hNone, hSame]
    rfl
  · have hRange : getRange? script pc script.length = some (script.drop pc) := by
      rw [getRange?_eq_some, take_length]
      exact ⟨hPc, Nat.le_refl _, rfl⟩
    have hKept : done ++ script.drop pc = opLexer.keep (· ≠ pattern) script := hDone
    rw [if_neg hNone, hRange, expect_some, ok_bind, hKept,
      assert_of (opLexer.length_keep_ne pattern script)]
    rfl

--------
-- Signatures
--------

/- Not the push of any of some signatures. -/
def pushesNone (signatures : List Element) (op : Bytes) : Bool :=
  signatures.all fun signature =>
    pushEncoding signature.val ≠ .ok op

namespace Machine

variable {K : Primitives}

/- Under legacy rules every signature is deleted from the code. -/
theorem multisigScriptCode_eq {env : Env K} {m : Machine} {isig sigCount : Nat}
    (hBase : env.sigVersion = .base) (hLow : 1 ≤ isig)
    (hHigh : isig + sigCount ≤ m.stack.items.length + 1) :
    m.multisigScriptCode env isig sigCount = do
      let code ← m.scriptCode env
      return opLexer.keep (pushesNone (m.stack.operands isig sigCount)) code := by
  rw [multisigScriptCode]
  congr 1
  funext code
  rw [if_pos hBase]
  induction sigCount with
  | zero =>
    have hAll : ∀ op ∈ operations code, pushesNone (m.stack.operands isig 0) op = true := by
      intro op _
      simp [pushesNone, Stack.operands]
    rw [Lexer.keep_eq_self hAll]
    rfl
  | succ sigCount ih =>
    have hMax : maxScriptElementSize = 520 := rfl
    rcases Stack.operands_succ hLow (by omega : isig + sigCount ≤ m.stack.items.length) with
      ⟨signature, hTop, hOperands⟩
    rcases isChunk_pushEncoding (by omega : signature.val.length < 2 ^ 32) with
      ⟨pattern, hPattern, hChunk⟩
    rw [range_succ, foldlM_append, ih (by omega), pure_eq_ok, ok_bind, foldlM_cons,
      hTop, ok_bind, hPattern, ok_bind, findAndDelete_eq hChunk, ok_bind]
    dsimp only
    rw [pure_eq_ok, ok_bind, foldlM_nil, Lexer.keep_keep, hOperands]
    congr 2
    funext op
    simp [pushesNone, hPattern, Bool.and_comm, eq_comm]

end Machine

/-
  Deleting the push of some data drops the operations that are that push and keeps the others and
  the tail. So it does nothing the second time, two deletions commute, and the code a legacy
  multisig signs depends on the set of signatures alone.
-/
theorem findAndDelete_exact (script : Bytes) {data : Bytes}
    (hData : data.length ≤ maxScriptElementSize) :
    ∃ pattern,
      pushEncoding data = .ok pattern ∧
        findAndDelete script pattern = .ok
            (((operations script).filter (· ≠ pattern)).flatten ++ truncatedTail script,
              (operations script).count pattern) ∧
        (∀ once found,
          findAndDelete script pattern = .ok (once, found) →
            findAndDelete once pattern = .ok (once, 0)) ∧
        (∀ other : Bytes,
          other.length ≤ maxScriptElementSize →
            ∃ second both,
              pushEncoding other = .ok second ∧
                (do
                  let (code, _) ← findAndDelete script pattern
                  let (code, _) ← findAndDelete code second
                  return code) = .ok both ∧
                (do
                  let (code, _) ← findAndDelete script second
                  let (code, _) ← findAndDelete code pattern
                  return code) = .ok both) ∧
        ∀ {K : Primitives} {env : Env K} {m n : Machine}
          {isig jsig sigCount count : Nat},
          env.sigVersion = .base →
            m.scriptCode env = n.scriptCode env →
            1 ≤ isig → 1 ≤ jsig →
            isig + sigCount ≤ m.stack.items.length + 1 →
            jsig + count ≤ n.stack.items.length + 1 →
            (∀ signature,
              signature ∈ m.stack.operands isig sigCount ↔
                signature ∈ n.stack.operands jsig count) →
              m.multisigScriptCode env isig sigCount = n.multisigScriptCode env jsig count := by
  have hMax : maxScriptElementSize = 520 := rfl
  rcases isChunk_pushEncoding (by omega : data.length < 2 ^ 32) with ⟨pattern, hPattern, hChunk⟩
  refine ⟨pattern, hPattern, findAndDelete_eq hChunk script, ?_, ?_, ?_⟩
  · intro once found hOnce
    rw [findAndDelete_eq hChunk, Except.ok.injEq, Prod.mk.injEq] at hOnce
    rcases hOnce with ⟨rfl, _⟩
    have hNone : (operations (opLexer.keep (· ≠ pattern) script)).count pattern = 0 := by
      rw [count_eq_zero, operations, (opLexer.chunks_keep _ script).1]
      simp
    rw [findAndDelete_eq hChunk, hNone, Lexer.keep_keep]
    simp only [Bool.and_self]
  · intro other hOther
    rcases isChunk_pushEncoding (by omega : other.length < 2 ^ 32) with
      ⟨second, hSnd, hSecondChunk⟩
    refine ⟨second, opLexer.keep (fun op => op ≠ pattern && op ≠ second) script, hSnd, ?_, ?_⟩
    · simp only [findAndDelete_eq hChunk, findAndDelete_eq hSecondChunk, ok_bind,
        pure_eq_ok, Lexer.keep_keep, Bool.and_comm]
    · simp only [findAndDelete_eq hChunk,
        findAndDelete_eq hSecondChunk, ok_bind, pure_eq_ok, Lexer.keep_keep]
  · intro K env m n isig jsig sigCount count hBase hCode hLow hLow' hHigh hHigh' hSame
    have hPushes :
        pushesNone (m.stack.operands isig sigCount) = pushesNone (n.stack.operands jsig count) := by
      funext op
      rw [pushesNone, pushesNone, Bool.eq_iff_iff]
      simp only [all_eq_true, hSame]
    rw [Machine.multisigScriptCode_eq hBase hLow hHigh,
      Machine.multisigScriptCode_eq hBase hLow' hHigh', hCode, hPushes]

/- Two copies, an opcode between them and a truncated push. -/
theorem findAndDelete_exact_twice :
    ([7] : Bytes).length ≤ maxScriptElementSize ∧
      findAndDelete [1, 7, 0xac, 1, 7, 2, 9] [1, 7] = .ok ([0xac, 2, 9], 2) := by
  refine ⟨by decide, ?_⟩
  rcases findAndDelete_exact [1, 7, 0xac, 1, 7, 2, 9] (show ([7] : Bytes).length ≤ _ by decide) with
    ⟨pattern, hPattern, hDelete, _⟩
  have hPush : pushEncoding [7] = .ok [1, 7] := by decide
  rw [hPush] at hPattern
  cases hPattern
  rw [hDelete]
  decide +kernel

end Bitmigo
