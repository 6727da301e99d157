import MatrixSsl.Basic
import MatrixSsl.Asn1.Length
import MatrixSsl.Asn1.Sequence
import MatrixSsl.Asn1.Integer
import MatrixSsl.Asn1.Oid
import MatrixSsl.Buf.DerLen
import MatrixSsl.Buf.TagLen
import MatrixSsl.Buf.Parse
import MatrixSsl.Buf.Heap
import MatrixSsl.Buf.Dyn
import MatrixSsl.Buf.Sticky
import MatrixSsl.Buf.DynInv
import MatrixSsl.Buf.DynOps
import MatrixSsl.Buf.Wrap
import MatrixSsl.Buf.ConstructedTag
import MatrixSsl.Buf.GrowNull
import MatrixSsl.Buf.Nest
import MatrixSsl.Buf.Build
import MatrixSsl.Buf.Descend
import MatrixSsl.Buf.Fixed
import MatrixSsl.Buf.Utf8
import MatrixSsl.Buf.Cursor
import MatrixSsl.Buf.ParseErrors
import MatrixSsl.Buf.DynErrors
