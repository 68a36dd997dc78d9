/-!
# Texts as bytes
-/

namespace Marginalia.Text
set_option autoImplicit false

/-- The bytes of a text in UTF-8. -/
def encoded (cs : List Char) : List UInt8 := cs.flatMap String.utf8EncodeChar

theorem encoded_append (cs more : List Char) : encoded (cs ++ more) = encoded cs ++ encoded more :=
  List.flatMap_append

theorem encoded_inj {cs cs' : List Char} : encoded cs = encoded cs' ↔ cs = cs' := by
  constructor
  · intro h
    have hbytes : cs.utf8Encode = cs'.utf8Encode := congrArg List.toByteArray h
    rw [← String.toByteArray_ofList, ← String.toByteArray_ofList, String.toByteArray_inj] at hbytes
    exact String.ofList_injective hbytes
  · exact congrArg encoded

end Marginalia.Text
