/-
The parser with every index and slice checked.  A read outside its buffer and
a loop that does not end both yield nothing here, so agreement with the parser
says that neither happens, whatever the input.
-/
import Ppv2Auth.Ppv2

namespace Ppv2Auth

namespace Ppv2

open BigEndian

/-- `&buf[start..stop]`, when it lies inside the buffer. -/
def slice? (buf : Bytes) (start stop : Nat) : Option Bytes :=
  if start ≤ stop ∧ stop ≤ buf.length then some ((buf.take stop).drop start)
  else none

/-- The loop of `find_vpce` at index `i`. -/
def findVpceAt (tlvs : Bytes) : Nat → Nat → Option Bytes
  | 0, _ => none
  | fuel + 1, i =>
      if i + 3 ≤ tlvs.length then do
        let valueLen := (word (← tlvs[i + 1]?) (← tlvs[i + 2]?)).toNat
        let stop := i + 3 + valueLen
        if stop > tlvs.length then some []
        else if (← tlvs[i]?) = tlvAws ∧ valueLen > 1 then
          if (← tlvs[i + 3]?) = awsSubtypeVpceId then
            slice? tlvs (i + 4) stop
          else findVpceAt tlvs fuel stop
        else findVpceAt tlvs fuel stop
      else some []

def parseBodyAt (len : Nat) (isV6 : Bool) (body : Bytes) :
    Option (Except Error Header) :=
  if body.length < blockLen isV6 then some (.error .invalid)
  else do
    let src ← slice? body 0 (addrSize isV6)
    let portOff := addrSize isV6 * 2
    let hi ← body[portOff]?
    let lo ← body[portOff + 1]?
    let tlvs ← slice? body (blockLen isV6) body.length
    let vpce ← findVpceAt tlvs (tlvs.length + 1) 0
    some (.ok {
      len
      src := Octets.fill 16 src
      srcPort := word hi lo
      isV6
      vpce })

def parseAt (buf : Bytes) : Option (Except Error Header) :=
  if buf.length < preamble then do
    let n := min buf.length signature.length
    if (← slice? buf 0 n) ≠ (← slice? signature 0 n) then
      some (.error .invalid)
    else some (.error (.need preamble))
  else do
    if (← slice? buf 0 12) ≠ signature ∨ (← buf[12]?) ≠ v2Proxy then
      some (.error .invalid)
    else
      let len := preamble + (word (← buf[14]?) (← buf[15]?)).toNat
      if len > maxHeader then some (.error .invalid)
      else if buf.length < len then some (.error (.need len))
      else
        let body ← slice? buf preamble len
        match family (← buf[13]?) with
        | none => some (.error .invalid)
        | some isV6 => parseBodyAt len isV6 body

theorem slice?_eq_some {buf : Bytes} {start stop : Nat} (hstart : start ≤ stop)
    (hstop : stop ≤ buf.length) :
    slice? buf start stop = some ((buf.take stop).drop start) :=
  if_pos ⟨hstart, hstop⟩

/-- From an index on the loop sees what is left of the records. -/
theorem findVpceAt_eq {tlvs : Bytes} {fuel steps i : Nat}
    (hfuel : tlvs.length - i < fuel) (hsteps : tlvs.length - i ≤ steps) :
    findVpceAt tlvs fuel i = some (findVpceFrom steps (tlvs.drop i)) := by
  induction fuel generalizing steps i with
  | zero => omega
  | succ fuel ih =>
      by_cases hroom : i + 3 ≤ tlvs.length
      · obtain ⟨steps, rfl⟩ : ∃ k, steps = k + 1 := ⟨steps - 1, by omega⟩
        have hkind : i < tlvs.length := by omega
        have hhi : i + 1 < tlvs.length := by omega
        have hlo : i + 2 < tlvs.length := by omega
        have hdrop : tlvs.drop i =
            tlvs[i] :: tlvs[i + 1] :: tlvs[i + 2] :: tlvs.drop (i + 3) := by
          rw [List.drop_eq_getElem_cons hkind, List.drop_eq_getElem_cons hhi,
            List.drop_eq_getElem_cons hlo]
        rw [findVpceAt, if_pos hroom, hdrop, findVpceFrom]
        simp only [List.getElem?_eq_getElem hkind, List.getElem?_eq_getElem hhi,
          List.getElem?_eq_getElem hlo, Option.bind_eq_bind, Option.bind_some,
          List.length_drop, List.drop_drop]
        set valueLen := (word tlvs[i + 1] tlvs[i + 2]).toNat
        have hover : i + 3 + valueLen > tlvs.length ↔
            valueLen > tlvs.length - (i + 3) := by
          omega
        simp only [hover]
        split
        · rfl
        · next hfits =>
            have hnext := @ih steps (i + 3 + valueLen) (by omega) (by omega)
            by_cases haws : tlvs[i] = tlvAws ∧ valueLen > 1
            · have hsub : i + 3 < tlvs.length := by omega
              have hhead : (tlvs.drop (i + 3)).head? = some tlvs[i + 3] := by
                rw [List.drop_eq_getElem_cons hsub, List.head?_cons]
              simp only [haws, and_self, true_and, ↓reduceIte, hhead,
                Option.some.injEq, List.getElem?_eq_getElem hsub,
                Option.bind_some]
              split
              · rw [slice?_eq_some (by omega) (by omega), List.take_drop, List.drop_drop]
              · exact hnext
            · have hnot : ¬ (tlvs[i] = tlvAws ∧ valueLen > 1 ∧
                  (tlvs.drop (i + 3)).head? = some awsSubtypeVpceId) := by
                tauto
              simp only [haws, hnot, ↓reduceIte]
              exact hnext
      · have hshort : (tlvs.drop i).length < 3 := by
          rw [List.length_drop]
          omega
        rw [findVpceAt, if_neg hroom]
        match tlvs.drop i, steps, hshort with
        | [], 0, _ | [], _ + 1, _ => rfl
        | [_], 0, _ | [_], _ + 1, _ => rfl
        | [_, _], 0, _ | [_, _], _ + 1, _ => rfl

theorem parseBodyAt_eq (len : Nat) (isV6 : Bool) (body : Bytes) :
    parseBodyAt len isV6 body = some (parseBody len isV6 body) := by
  rw [parseBodyAt, parseBody]
  split
  · rfl
  · next hblock =>
      have hsize : blockLen isV6 = addrSize isV6 * 2 + 4 := rfl
      have hhi : addrSize isV6 * 2 < body.length := by omega
      have hlo : addrSize isV6 * 2 + 1 < body.length := by omega
      rw [slice?_eq_some (by omega) (by omega), slice?_eq_some (by omega) le_rfl]
      simp only [List.getElem?_eq_getElem hhi, List.getElem?_eq_getElem hlo,
        Option.bind_eq_bind, Option.bind_some, List.drop_zero, List.take_length]
      set tlvs := body.drop (blockLen isV6)
      have hwalk : findVpceAt tlvs (tlvs.length + 1) 0 =
          some (findVpceFrom tlvs.length (tlvs.drop 0)) :=
        findVpceAt_eq (Nat.lt_succ_self _) le_rfl
      rw [hwalk]
      rfl

/-- No index leaves the buffer and the walk ends: the checked parser always
yields what the parser does. -/
theorem parseAt_eq (buf : Bytes) : parseAt buf = some (parse buf) := by
  have hpreamble : preamble = 16 := rfl
  have hsignature : signature.length = 12 := rfl
  rw [parseAt, parse]
  split
  · dsimp only
    rw [slice?_eq_some (by omega) (by omega), slice?_eq_some (by omega) (by omega)]
    simp only [Option.bind_eq_bind, Option.bind_some, List.drop_zero]
    split
    · rfl
    · rfl
  · next hlong =>
      have h12 : 12 < buf.length := by omega
      have h13 : 13 < buf.length := by omega
      have h14 : 14 < buf.length := by omega
      have h15 : 15 < buf.length := by omega
      rw [slice?_eq_some (by omega) (by omega)]
      simp only [List.getElem?_eq_getElem h12, List.getElem?_eq_getElem h13,
        List.getElem?_eq_getElem h14, List.getElem?_eq_getElem h15,
        Option.bind_eq_bind, Option.bind_some, List.drop_zero]
      split
      · rfl
      · split
        · rfl
        · split
          · rfl
          · next hpresent =>
              rw [slice?_eq_some (by omega) (by omega), Option.bind_some]
              cases family buf[13] with
              | none => rfl
              | some isV6 => exact parseBodyAt_eq _ isV6 _

end Ppv2

end Ppv2Auth
